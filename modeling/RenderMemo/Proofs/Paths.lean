import Mathlib.Data.List.TakeWhile
import RenderMemo.FileSystem

open List

namespace RenderMemo.Path

-- A piece of a path that leads from a directory to one of its entries.
structure IsName (name : String) : Prop where
  ne_empty : name ≠ ""
  ne_dot   : name ≠ "."
  ne_dots  : name ≠ ".."
  noSlash  : '/' ∉ name.toList

theorem splitSlash_ne_nil (cs : List Char) : splitSlash cs ≠ [] := by
  fun_cases splitSlash cs <;> simp

theorem splitSlash_append_slash (cs ds : List Char) :
    splitSlash (cs ++ '/' :: ds) = splitSlash cs ++ splitSlash ds := by
  fun_induction splitSlash cs
  case case1 => simp [splitSlash]
  case case2 cs hi => simp [splitSlash, hi]
  case case3 c cs _ hcs _ => exact absurd hcs (splitSlash_ne_nil cs)
  case case4 c cs hc p ps hcs hi =>
    rw [cons_append, splitSlash.eq_3 _ _ hc, hi, hcs]
    rfl

theorem splitSlash_of_not_mem {cs : List Char} (h : '/' ∉ cs) : splitSlash cs = [cs] := by
  induction cs
  case nil => rfl
  case cons c cs hi =>
    have ⟨hc, hcs⟩ := not_or.mp (mt mem_cons.mpr h)
    rw [splitSlash.eq_3 _ _ fun heq => hc heq.symm, hi hcs]

theorem not_mem_of_mem_splitSlash {cs p : List Char} (h : p ∈ splitSlash cs) : '/' ∉ p := by
  fun_induction splitSlash cs generalizing p
  case case1 => simp_all
  case case2 cs hi =>
    rcases mem_cons.mp h with rfl | h
    · exact not_mem_nil
    · exact hi h
  case case3 c cs _ hcs _ => exact absurd hcs (splitSlash_ne_nil cs)
  case case4 c cs hc q qs hcs hi =>
    rw [hcs] at hi
    rcases mem_cons.mp h with rfl | h
    · exact fun hmem => (mem_cons.mp hmem).elim (fun heq => hc heq.symm) <| hi mem_cons_self
    · exact hi <| mem_cons_of_mem _ h

-- Every path has a last piece, even if it is empty.
theorem exists_pieces_concat (path : String) : ∃ ps last, pieces path = ps ++ [last] := by
  have hne : pieces path ≠ [] := mt map_eq_nil_iff.mp <| splitSlash_ne_nil _
  exact ⟨_, _, (dropLast_concat_getLast hne).symm⟩

theorem noSlash_of_mem_pieces {path piece : String} (h : piece ∈ pieces path) : '/' ∉ piece.toList := by
  obtain ⟨cs, hcs, rfl⟩ := mem_map.mp h
  rw [String.toList_ofList]
  exact not_mem_of_mem_splitSlash hcs

-- The last piece that is not empty, which makes a directory by its name.
theorem exists_pieces_of_dropWhile {path last : String} {before : List String}
    (h : (pieces path).reverse.dropWhile (· == "") = last :: before) :
    ∃ empties, pieces path = before.reverse ++ last :: empties ∧ ∀ p ∈ empties, p = "" := by
  have hpieces := (takeWhile_append_dropWhile (p := (· == "")) (l := (pieces path).reverse)).symm
  rw [h, reverse_eq_iff] at hpieces
  refine ⟨_, by simpa using hpieces, fun p hp => ?_⟩
  simpa using mem_takeWhile_imp (mem_reverse.mp hp)

-- A name stands behind the pieces of a directory, where it may take the place of an empty last piece.
theorem exists_pieces_join (directory : String) {name : String} (h : IsName name) :
    ∃ ps, pieces (join directory name) = ps ++ [name] ∧
      (pieces directory = ps ∨ pieces directory = ps ++ [""]) := by
  have hname : splitSlash name.toList = [name.toList] := splitSlash_of_not_mem h.noSlash
  rw [join]
  split
  case isTrue hend =>
    simp only [Bool.or_eq_true, beq_iff_eq] at hend
    rcases hend with rfl | hend
    · exact ⟨[], by simp [pieces, hname], .inr rfl⟩
    · obtain ⟨cs, hcs⟩ := getLast?_eq_some_iff.mp hend
      have hsplit (ds : List Char) := splitSlash_append_slash cs ds
      refine ⟨(splitSlash cs).map String.ofList, ?_, .inr ?_⟩
      · simp [pieces, hcs, hsplit, hname]
      · simp [pieces, hcs, hsplit, splitSlash]
  case isFalse =>
    refine ⟨pieces directory, ?_, .inl rfl⟩
    simp [pieces, splitSlash_append_slash, hname]

theorem isAbsolute_join (directory : String) {name : String} (h : IsName name) :
    isAbsolute (join directory name) = isAbsolute directory := by
  have hname : name.toList.head? ≠ some '/' := fun heq => h.noSlash <| mem_of_head? heq
  by_cases hempty : directory = ""
  case pos => simpa [join, isAbsolute, hempty] using hname
  case neg =>
    obtain ⟨c, cs, hcs⟩ := exists_cons_of_ne_nil <| mt String.toList_eq_nil_iff.mp hempty
    rw [join]
    split <;> simp [isAbsolute, hcs]

-- The pieces that are passed over are the empty ones, and every dot but one in front.
theorem components_cases (path : String) :
    (∃ rest, (pieces path).filter (· != "") = "." :: rest ∧ components path = "." :: rest.filter (· != ".")) ∨
      components path = ((pieces path).filter (· != "")).filter (· != ".") := by
  simp only [components]
  split
  case h_1 rest _ hrest => exact .inl ⟨rest, hrest, rfl⟩
  case h_2              => exact .inr rfl

theorem mem_of_mem_components {path c : String} (h : c ∈ components path) :
    c ∈ pieces path ∧ c ≠ "" := by
  suffices hnamed : c ∈ (pieces path).filter (· != "") by simpa using hnamed
  rcases components_cases path with ⟨rest, hrest, heq⟩ | heq
  · rw [heq, mem_cons] at h
    rw [hrest, mem_cons]
    exact h.imp_right fun h => (mem_filter.mp h).1
  · exact (mem_filter.mp <| heq ▸ h).1

theorem isName_of_fileName? {path name : String} (h : fileName? path = some name) : IsName name := by
  unfold fileName? at h
  split at h
  case h_1 => cases h
  case h_2 last hlast =>
    have hmem := mem_of_mem_components <| mem_of_getLast? hlast
    split at h
    case isTrue => cases h
    case isFalse hdots =>
      cases h
      rw [Bool.or_eq_true, beq_iff_eq, beq_iff_eq, not_or] at hdots
      exact ⟨hmem.2, hdots.1, hdots.2, noSlash_of_mem_pieces hmem.1⟩

-- The last piece is the last component, unless it is passed over.
theorem getLast?_components {path last : String} {ps : List String} (h : pieces path = ps ++ [last])
    (hempty : last ≠ "") (hdot : last ≠ ".") : (components path).getLast? = some last := by
  have hnamed : (pieces path).filter (· != "") = ps.filter (· != "") ++ [last] := by
    simp [h, hempty]
  rcases components_cases path with ⟨rest, hrest, heq⟩ | heq
  · obtain ⟨init, rfl⟩ : ∃ init, rest = init ++ [last] := by
      rw [hnamed] at hrest
      rcases append_eq_cons_iff.mp hrest with ⟨_, hlast⟩ | ⟨init, _, hrest⟩
      · exact absurd (cons.inj hlast).1 hdot
      · exact ⟨init, hrest⟩
    rw [heq, filter_append, filter_cons_of_pos (by simpa using hdot), ← cons_append]
    exact getLast?_concat
  · rw [heq, hnamed, filter_append, filter_cons_of_pos (by simpa using hdot)]
    exact getLast?_concat

theorem fileName?_eq {path last : String} {ps : List String} (h : pieces path = ps ++ [last])
    (hempty : last ≠ "") (hdot : last ≠ ".") :
    fileName? path = if last = ".." then none else some last := by
  rw [fileName?, getLast?_components h hempty hdot]
  simp [hdot]

end RenderMemo.Path
