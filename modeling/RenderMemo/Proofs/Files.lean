import Mathlib.Tactic.ByContra
import RenderMemo.Proofs.Paths
import RenderMemo.Proofs.Prelude

open List

namespace RenderMemo.FileSystem

variable {fs fs₁ fs₂ fs₃ : FileSystem} {place : List String} {path text : String}

theorem lookup_filter_ne {q : List String} (h : q ≠ place) (entries : List (List String × FileEntry)) :
    (entries.filter (·.1 != place)).lookup q = entries.lookup q := by
  induction entries
  case nil => rfl
  case cons x xs hi =>
    by_cases hx : x.1 = place
    case pos =>
      have hq : (q == x.1) = false := beq_eq_false_iff_ne.mpr (hx ▸ h)
      rw [filter_cons_of_neg (by simpa using hx), hi, lookup_cons, hq]
    case neg => rw [filter_cons_of_pos (by simpa using hx), lookup_cons, lookup_cons, hi]

theorem entry?_put {e : FileEntry} (h : place ≠ []) (q : List String) :
    entry? (fs.put place e) q = if q = place then some e else fs.entry? q := by
  by_cases hq : q = place
  case pos => simp [FileSystem.entry?, put, hq, h]
  case neg =>
    have hbeq : (q == place) = false := beq_eq_false_iff_ne.mpr hq
    simp [FileSystem.entry?, put, lookup_cons, hq, hbeq, lookup_filter_ne hq]

-- The root is a directory, so nothing is put there.
theorem ne_root (h : fs.entry? place ≠ some .directory) : place ≠ [] :=
  fun hroot => h <| by rw [FileSystem.entry?, if_pos hroot]

-- Where a piece leads from a directory.
def onward (place : List String) (piece : String) : List String :=
  if piece == "" || piece == "." then place
  else if piece == ".." then place.dropLast
  else place ++ [piece]

theorem onward_of_isName {name : String} (h : Path.IsName name) (place : List String) :
    onward place name = place ++ [name] := by
  simp [onward, h.ne_empty, h.ne_dot, h.ne_dots]

theorem walk_of_directory (h : fs.entry? place = some .directory) (piece : String) :
    fs.walk place piece = .ok (onward place piece) := by
  rw [walk, h, onward, apply_ite Except.ok, apply_ite Except.ok]

theorem walk_eq_ok_iff {piece : String} {next : List String} :
    fs.walk place piece = .ok next ↔ fs.entry? place = some .directory ∧ onward place piece = next := by
  constructor
  case mp =>
    intro hwalk
    have hplace : fs.entry? place = some .directory := by
      rw [walk] at hwalk
      split at hwalk
      case h_1   => cases hwalk
      case h_2   => cases hwalk
      case h_3 h => exact h
    exact ⟨hplace, Except.ok.inj <| (walk_of_directory hplace piece).symm.trans hwalk⟩
  case mpr => exact fun ⟨hplace, hnext⟩ => hnext ▸ walk_of_directory hplace piece

-- An empty piece in front of another one is not noticed.
theorem walk_empty_bind (fs : FileSystem) (place : List String) (piece : String) :
    (fs.walk place "" >>= fun next => fs.walk next piece) = fs.walk place piece := by
  rw [walk]
  split
  case h_1 h => simp [walk, h, bind, Except.bind]
  case h_2 h => simp [walk, h, bind, Except.bind]
  case h_3   => rfl

-- Every way that leads somewhere still leads there.
structure Extends (fs₁ fs₂ : FileSystem) : Prop where
  current   : fs₂.current = fs₁.current
  directory : ∀ place, fs₁.entry? place = some .directory → fs₂.entry? place = some .directory

namespace Extends

theorem refl (fs : FileSystem) : fs.Extends fs where
  current   := rfl
  directory := fun _ => id

theorem trans (h₁ : fs₁.Extends fs₂) (h₂ : fs₂.Extends fs₃) : fs₁.Extends fs₃ where
  current   := h₂.current.trans h₁.current
  directory := fun place h => h₂.directory place <| h₁.directory place h

-- Whatever is put somewhere, no directory is lost if there was none.
theorem put {e : FileEntry} (h : fs.entry? place ≠ some .directory) : fs.Extends (fs.put place e) where
  current   := rfl
  directory := fun q hq => by
    have hne : q ≠ place := fun heq => h (heq ▸ hq)
    rw [entry?_put (ne_root h), if_neg hne]
    exact hq

theorem walk {piece : String} {next : List String} (h : fs₁.Extends fs₂)
    (hwalk : fs₁.walk place piece = .ok next) : fs₂.walk place piece = .ok next :=
  have ⟨hplace, hnext⟩ := walk_eq_ok_iff.mp hwalk
  walk_eq_ok_iff.mpr ⟨h.directory _ hplace, hnext⟩

theorem walks (h : fs₁.Extends fs₂) {pieces : List String} {start : List String}
    (hwalks : pieces.foldlM fs₁.walk start = .ok place) : pieces.foldlM fs₂.walk start = .ok place := by
  induction pieces generalizing start
  case nil => exact hwalks
  case cons piece pieces hi =>
    rw [foldlM_cons, bind_eq_ok_iff] at hwalks ⊢
    have ⟨next, hnext, hrest⟩ := hwalks
    exact ⟨next, h.walk hnext, hi hrest⟩

theorem locate (h : fs₁.Extends fs₂) (hlocate : fs₁.locate path = .ok place) :
    fs₂.locate path = .ok place := by
  unfold FileSystem.locate start at *
  rw [h.current]
  exact h.walks hlocate

end Extends

theorem locate_eq_ok_of_concat {ps : List String} {last : String} (h : Path.pieces path = ps ++ [last]) :
    fs.locate path = .ok place ↔ ∃ above, ps.foldlM fs.walk (fs.start path) = .ok above ∧
      fs.entry? above = some .directory ∧ onward above last = place := by
  rw [locate, h, foldlM_append, bind_eq_ok_iff]
  simp only [foldlM_single, walk_eq_ok_iff]

-- A name leads to an entry of the directory in front of it.
theorem locate_join {directory name : String} (h : Path.IsName name) :
    fs.locate (Path.join directory name) = .ok place ↔ ∃ above,
      fs.locate directory = .ok above ∧ fs.entry? above = some .directory ∧ place = above ++ [name] := by
  have ⟨ps, hjoin, hdirectory⟩ := Path.exists_pieces_join directory h
  have hlocate : fs.locate (Path.join directory name) = fs.locate directory >>= (fs.walk · name) := by
    have hstart : fs.start (Path.join directory name) = fs.start directory := by
      rw [start, Path.isAbsolute_join directory h, start]
    rw [locate, locate, hjoin, hstart, foldlM_append]
    rcases hdirectory with hdirectory | hdirectory
    · simp only [hdirectory, foldlM_single]
    · simp only [hdirectory, foldlM_append, foldlM_single, bind_assoc, walk_empty_bind]
  rw [hlocate, bind_eq_ok_iff]
  refine exists_congr fun above => and_congr_right fun _ => ?_
  rw [walk_eq_ok_iff, onward_of_isName h, eq_comm (a := place)]

-- A path to something else than a directory ends with the name of the file.
theorem exists_of_locate {name : String} (h : fs.locate path = .ok place)
    (hentry : fs.entry? place ≠ some .directory) (hname : Path.fileName? path = some name) :
    ∃ above, place = above ++ [name] := by
  have ⟨ps, last, hlast⟩ := Path.exists_pieces_concat path
  have ⟨above, _, habove, honward⟩ := (locate_eq_ok_of_concat hlast).mp h
  have hpassed {piece : String} (hpiece : onward above piece = above) (heq : last = piece) : False := by
    rw [heq, hpiece] at honward
    exact hentry (honward ▸ habove)
  have hlast := Path.fileName?_eq hlast (hpassed rfl) (hpassed rfl)
  rw [hname] at hlast
  split at hlast
  case isTrue  => cases hlast
  case isFalse =>
    cases hlast
    exact ⟨above, honward ▸ onward_of_isName (Path.isName_of_fileName? hname) above⟩

theorem read_eq_ok_iff :
    fs.read path = .ok text ↔
      ∃ place, fs.locate path = .ok place ∧ fs.entry? place = some (.file (some text)) := by
  rw [read, bind_eq_ok_iff]
  refine exists_congr fun place => and_congr_right fun _ => ?_
  split <;> simp_all [pure, Except.pure, throw, throwThe, MonadExceptOf.throw]

theorem write_eq_ok_iff :
    fs₁.write path text = .ok fs₂ ↔ ∃ place, fs₁.locate path = .ok place ∧
      fs₁.entry? place ≠ some .directory ∧ fs₂ = fs₁.put place (.file (some text)) := by
  rw [write, bind_eq_ok_iff]
  refine exists_congr fun place => and_congr_right fun _ => ?_
  split <;> simp_all [pure, Except.pure, throw, throwThe, MonadExceptOf.throw, eq_comm]

theorem write_extends (h : fs₁.write path text = .ok fs₂) : fs₁.Extends fs₂ := by
  have ⟨_, _, hentry, heq⟩ := write_eq_ok_iff.mp h
  exact heq ▸ .put hentry

-- What is written can be read.
theorem read_write (h : fs₁.write path text = .ok fs₂) : fs₂.read path = .ok text := by
  have ⟨place, hplace, hentry, heq⟩ := write_eq_ok_iff.mp h
  refine read_eq_ok_iff.mpr ⟨place, (write_extends h).locate hplace, ?_⟩
  rw [heq, entry?_put (ne_root hentry), if_pos rfl]

-- Directories were made at some paths where there was nothing.
structure Makes (fs₁ fs₂ : FileSystem) (paths : List String) : Prop where
  ways : fs₁.Extends fs₂
  made : ∀ place, fs₂.entry? place ≠ fs₁.entry? place →
    fs₁.entry? place = none ∧ fs₂.entry? place = some .directory ∧
      ∃ path ∈ paths, fs₂.locate path = .ok place

namespace Makes

variable {paths paths₁ paths₂ : List String}

theorem refl (fs : FileSystem) (paths : List String) : fs.Makes fs paths where
  ways := .refl fs
  made := fun _ h => absurd rfl h

theorem mono (h : fs₁.Makes fs₂ paths₁) (hsub : paths₁ ⊆ paths₂) : fs₁.Makes fs₂ paths₂ where
  ways := h.ways
  made := fun place hplace =>
    have ⟨hnone, hdirectory, path, hpath, hlocate⟩ := h.made place hplace
    ⟨hnone, hdirectory, path, hsub hpath, hlocate⟩

theorem trans (h₁ : fs₁.Makes fs₂ paths) (h₂ : fs₂.Makes fs₃ paths) : fs₁.Makes fs₃ paths where
  ways := h₁.ways.trans h₂.ways
  made := fun place hplace => by
    by_cases hfirst : fs₂.entry? place = fs₁.entry? place
    case pos => exact hfirst ▸ h₂.made place (hfirst ▸ hplace)
    case neg =>
      have ⟨hnone, hdirectory, path, hpath, hlocate⟩ := h₁.made place hfirst
      exact ⟨hnone, h₂.ways.directory _ hdirectory, path, hpath, h₂.ways.locate hlocate⟩

-- Files stay as they are.
theorem entry?_of_file (h : fs₁.Makes fs₂ paths) {text : Option String}
    (hfile : fs₂.entry? place = some (.file text)) : fs₁.entry? place = some (.file text) := by
  by_contra hne
  have ⟨_, hdirectory, _⟩ := h.made place fun heq => hne (heq ▸ hfile)
  cases hfile.symm.trans hdirectory

end Makes

-- Empty pieces behind a directory lead nowhere else.
theorem walks_empty {ps : List String} (hps : ∀ p ∈ ps, p = "") (h : fs.entry? place = some .directory) :
    ps.foldlM fs.walk place = .ok place := by
  induction ps
  case nil => rfl
  case cons p ps hi =>
    have ⟨hp, hps⟩ := forall_mem_cons.mp hps
    rw [foldlM_cons, walk_of_directory h, hp]
    exact hi hps

theorem makeDirectory_makes (h : fs₁.makeDirectory path = .ok fs₂) : fs₁.Makes fs₂ [path] := by
  unfold makeDirectory at h
  split at h
  case h_1 => cases h
  case h_2 last before hpieces =>
    have ⟨above, habove, h⟩ := bind_eq_ok_iff.mp h
    have ⟨place, hplace, h⟩ := bind_eq_ok_iff.mp h
    dsimp only at h
    split at h
    case isTrue => cases h
    case isFalse =>
      split at h
      case h_1 => cases h
      case h_2 hnone =>
        cases h
        have hnew : fs₁.entry? place ≠ some .directory := fun h => nomatch hnone.symm.trans h
        have hentry (q : List String) := fs₁.entry?_put (e := .directory) (ne_root hnew) q
        have hways : fs₁.Extends (fs₁.put place .directory) := .put hnew
        have hlocate : (fs₁.put place .directory).locate path = .ok place := by
          have ⟨empties, hpath, hempties⟩ := Path.exists_pieces_of_dropWhile hpieces
          rw [locate, hpath, foldlM_append]
          refine bind_eq_ok_iff.mpr ⟨above, hways.walks habove, ?_⟩
          rw [foldlM_cons]
          refine bind_eq_ok_iff.mpr ⟨place, hways.walk hplace, ?_⟩
          exact walks_empty hempties <| (hentry place).trans (if_pos rfl)
        refine ⟨hways, fun q hq => ?_⟩
        by_cases heq : q = place
        case pos =>
          subst heq
          exact ⟨hnone, (hentry q).trans (if_pos rfl), path, mem_singleton_self path, hlocate⟩
        case neg => exact absurd ((hentry q).trans (if_neg heq)) hq

theorem makeDirectoriesFrom_makes (path : String) (ancestors : List String) (fs : FileSystem) :
    fs.Makes (fs.makeDirectoriesFrom path ancestors).files (path :: ancestors) := by
  induction ancestors generalizing path fs
  case nil =>
    rw [makeDirectoriesFrom]
    split
    case h_1 h => exact makeDirectory_makes h
    case h_2   => exact .refl fs _
  case cons parent others hi =>
    have hself {fs₁ fs₂ : FileSystem} (h : fs₁.makeDirectory path = .ok fs₂) :
        fs₁.Makes fs₂ (path :: parent :: others) :=
      (makeDirectory_makes h).mono <| by simp
    have habove := (hi parent fs).mono <| subset_cons_self path (parent :: others)
    rw [makeDirectoriesFrom]
    split
    case h_1 h => exact hself h
    case h_2   =>
      split
      case h_1 h => exact h ▸ habove
      case h_2 h =>
        rw [h] at habove
        split
        case h_1 h => exact habove.trans <| hself h
        case h_2   => exact habove
    case h_3   => exact .refl fs _

-- Making a directory puts nothing else on disk than the directory and those above it.
theorem makeDirectories_makes (fs : FileSystem) (path : String) :
    fs.Makes (fs.makeDirectories path).files (path :: Path.ancestors path) :=
  makeDirectoriesFrom_makes path (Path.ancestors path) fs

end RenderMemo.FileSystem
