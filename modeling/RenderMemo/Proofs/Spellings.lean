import RenderMemo.Proofs.Asked

open List

namespace RenderMemo.Command

-- A value that may stand as an argument of its own. It must not look like an option.
def IsPlain (text : String) : Prop :=
  text ≠ "" ∧ (text.toList.head? ≠ some '-' ∨ text = "-")

-- The letters behind a single hyphen, with the arguments that come after them. Only the last letter may
-- belong to an option with a value.
inductive Cluster : List Setting → List Char → List String → Prop
  | verbose : Cluster [.flag .verbose] ['v'] []
  | equals {v : Valued} {c : Char} {text : String} :
      (Switch.valued v).letter? = some c → Cluster [.valued v text] (c :: '=' :: text.toList) []
  | joined {v : Valued} {c : Char} {text : String} :
      (Switch.valued v).letter? = some c → text ≠ "" → text.toList.head? ≠ some '=' →
      Cluster [.valued v text] (c :: text.toList) []
  | next {v : Valued} {c : Char} {text : String} :
      (Switch.valued v).letter? = some c → IsPlain text → Cluster [.valued v text] [c] [text]
  | combined {ss : List Setting} {cs : List Char} {more : List String} :
      Cluster ss cs more → Cluster (.flag .verbose :: ss) ('v' :: cs) more

-- The ways to write a setting, or the settings whose letters stand behind one hyphen.
inductive Written : List Setting → List String → Prop
  | long (s : Setting) : Written [s] [s.long]
  | next {v : Valued} {text : String} :
      IsPlain text → Written [.valued v text] ["--" ++ (Switch.valued v).name, text]
  | letters {ss : List Setting} {cs : List Char} {more : List String} :
      Cluster ss cs more → Written ss (String.ofList ('-' :: cs) :: more)

-- Settings one after the other, each in any way.
inductive Spelled : List Setting → List String → Prop
  | nil : Spelled [] []
  | cons {ss rest : List Setting} {as args : List String} :
      Written ss as → Spelled rest args → Spelled (ss ++ rest) (as ++ args)

namespace Reading

section

variable {r s : Reading} {file : String} {files : List String}

-- Checking leaves nothing pending, and does not change what counts as a path.
theorem settled (h : r.settle = .ok s) : s.pending = .nothing ∧ s.pathsOnly = r.pathsOnly := by
  rw [settle] at h
  split at h
  case h_1 hpending =>
    cases h
    exact ⟨hpending, rfl⟩
  case h_2 =>
    obtain ⟨_, _, heq⟩ := bind_eq_ok_iff.mp h
    cases heq
    exact ⟨rfl, rfl⟩
  case h_3 => cases h
  case h_4 =>
    obtain ⟨_, _, heq⟩ := bind_eq_ok_iff.mp h
    cases heq
    exact ⟨rfl, rfl⟩

-- What is pending is checked in the same way behind two hyphens.
theorem settle_pathsOnly (h : r.settle = .ok s) :
    ({ r with pathsOnly := true } : Reading).settle = .ok { s with pathsOnly := true } := by
  obtain ⟨options, pending, only⟩ := r
  cases pending
  case nothing =>
    cases h
    rfl
  case paths ps =>
    obtain ⟨checked, hchecked, heq⟩ := bind_eq_ok_iff.mp h
    cases heq
    exact bind_eq_ok_iff.mpr ⟨checked, hchecked, rfl⟩
  case option v value? =>
    cases value?
    case none => cases h
    case some text =>
      obtain ⟨options', hassign, heq⟩ := bind_eq_ok_iff.mp h
      cases heq
      exact bind_eq_ok_iff.mpr ⟨options', hassign, rfl⟩

-- A path is taken behind all that was pending.
theorem settle_path (h : r.settle = .ok s) (hfile : file ≠ "") :
    ∃ r', r.path file = .ok r' ∧ r'.pathsOnly = r.pathsOnly ∧
      r'.settle = .ok { s with options := { s.options with files := s.options.files ++ [file] } } := by
  have ⟨hnothing, honly⟩ := settled h
  have hpath : pathOfText file = .ok file := by simp [pathOfText, hfile]
  by_cases hpending : ∃ ps, r.pending = .paths ps
  case pos =>
    obtain ⟨ps, hpending⟩ := hpending
    simp only [settle, hpending] at h
    obtain ⟨checked, hchecked, heq⟩ := bind_eq_ok_iff.mp h
    cases heq
    refine ⟨{ r with pending := .paths (ps ++ [file]) }, by simp only [path, hpending], rfl, ?_⟩
    simp [settle, hchecked, hpath]
  case neg =>
    refine ⟨{ s with pending := .paths [file] }, ?_, honly, ?_⟩
    case refine_1 =>
      rw [path]
      split
      case h_1 ps hps => exact absurd ⟨ps, hps⟩ hpending
      case h_2        => simp [h]
    case refine_2 =>
      simp [settle, hpath, hnothing]

theorem settle_paths (h : r.settle = .ok s) (honly : r.pathsOnly) (hfiles : "" ∉ files) :
    ∃ r', files.foldlM argument r = .ok r' ∧
      r'.settle = .ok { s with options := { s.options with files := s.options.files ++ files } } := by
  induction files generalizing r s
  case nil => exact ⟨r, rfl, by simpa using h⟩
  case cons file files hi =>
    rw [mem_cons, not_or] at hfiles
    have ⟨r', hpath, honly', hsettle⟩ := settle_path h (Ne.symm hfiles.1)
    have ⟨r'', hfold, hsettle'⟩ := hi hsettle (honly'.trans honly) hfiles.2
    refine ⟨r'', ?_, by simpa using hsettle'⟩
    rw [foldlM_cons, argument, if_pos honly, hpath]
    exact hfold

end

variable {r : Reading} {p q : Options} {v : Valued} {f : Flag} {c : Char} {cs : List Char} {text : String}
  {ss : List Setting} {args more : List String}

theorem argument_plain (hr : r.pathsOnly = false) (htext : IsPlain text) : r.argument text = r.plain text := by
  have hne : text.toList ≠ [] := fun h => htext.1 (String.toList_eq_nil_iff.mp h)
  obtain ⟨c, cs, htoList⟩ := exists_cons_of_ne_nil hne
  rw [argument, hr]
  obtain ⟨_, hhead | rfl⟩ := htext
  · have hc : c ≠ '-' := by
      rintro rfl
      exact hhead (by rw [htoList, head?_cons])
    rw [htoList]
    split
    all_goals simp_all
  · rfl

-- That a reading comes to some options as soon as what is pending is checked.
def Reaches (r : Reading) (p : Options) : Prop := r.settle = .ok { options := p }

theorem reaches_options (p : Options) : Reaches { options := p } p := rfl

theorem Reaches.pathsOnly (h : r.Reaches p) : r.pathsOnly = false := (settled h).2.symm

-- Only the options count when the next one comes.

theorem Reaches.valued (h : r.Reaches p) (htake : p.take (.valued v text) = .ok q) :
    r.valued v (some text) = .ok { options := q } := by
  rw [Options.take] at htake
  simp [Reading.valued, show r.settle = _ from h, htake]

theorem Reaches.flag (h : r.Reaches p) (htake : p.take (.flag f) = .ok q) : r.flag f = .ok { options := q } := by
  rw [Options.take] at htake
  simp [Reading.flag, show r.settle = _ from h, htake]

-- The value of an option may be the next argument.
theorem Reaches.next (h : r.Reaches p) (htake : p.take (.valued v text) = .ok q) (htext : IsPlain text) :
    ∃ r₁ r₂, r.valued v none = .ok r₁ ∧ r₁.argument text = .ok r₂ ∧ r₂.Reaches q := by
  rw [Options.take] at htake
  refine ⟨{ options := p, pending := .option v none }, { options := p, pending := .option v (some text) },
    ?_, ?_, ?_⟩
  case refine_1 => simp [Reading.valued, show r.settle = _ from h]
  case refine_2 => rw [argument_plain rfl htext, plain]
  case refine_3 => simp [Reaches, settle, htake]

theorem argument_long (hr : r.pathsOnly = false) (hcs : cs ≠ []) :
    r.argument (String.ofList ('-' :: '-' :: cs)) = r.long cs := by
  obtain ⟨c, cs, rfl⟩ := exists_cons_of_ne_nil hcs
  simp [argument, hr]

theorem argument_equals (hr : r.pathsOnly = false) (v : Valued) (text : String) :
    r.argument (Setting.valued v text).long = r.valued v (some text) := by
  have hends : ∀ c ∈ ('=' :: text.toList).head?, (c != '=') = false := by simp
  have ⟨htake, hdrop⟩ := takeWhile_append_of_stops (Switch.valued v).ne_equals_of_mem_name hends
  have harg : (Setting.valued v text).long =
      String.ofList ('-' :: '-' :: ((Switch.valued v).name.toList ++ '=' :: text.toList)) := by
    simp [← String.toList_inj, Setting.long]
  rw [harg, argument_long hr (by simp), long, htake, hdrop]
  simp [Switch.ofName?_name]

theorem argument_name (hr : r.pathsOnly = false) (w : Switch) :
    r.argument ("--" ++ w.name) =
      match w with
      | .valued v => r.valued v none
      | .flag f => r.flag f := by
  have hends : ∀ c ∈ ([] : List Char).head?, (c != '=') = false := by simp
  have ⟨htake, hdrop⟩ := takeWhile_append_of_stops w.ne_equals_of_mem_name hends
  have harg : "--" ++ w.name = String.ofList ('-' :: '-' :: w.name.toList) := by
    simp [← String.toList_inj]
  rw [append_nil] at htake hdrop
  rw [harg, argument_long hr w.name_ne_nil, long, htake, hdrop]
  cases w <;> simp [Switch.ofName?_name]

theorem letters_name (hletter : (Switch.valued v).letter? = some c) (r : Reading) :
    r.letters [c] = r.valued v none := by
  rw [letters, Switch.ofLetter?_of_letter? hletter]

theorem letters_equals (hletter : (Switch.valued v).letter? = some c) (r : Reading) (text : String) :
    r.letters (c :: '=' :: text.toList) = r.valued v (some text) := by
  rw [letters, Switch.ofLetter?_of_letter? hletter]
  simp

theorem letters_joined (hletter : (Switch.valued v).letter? = some c) (hne : text ≠ "")
    (hhead : text.toList.head? ≠ some '=') (r : Reading) :
    r.letters (c :: text.toList) = r.valued v (some text) := by
  rw [letters, Switch.ofLetter?_of_letter? hletter]
  simp only
  split
  case h_1 heq => exact absurd (String.toList_eq_nil_iff.mp heq) hne
  case h_2 heq => exact absurd (by rw [heq, head?_cons]) hhead
  case h_3     => rw [String.ofList_toList]

theorem letters_verbose (r : Reading) (cs : List Char) :
    r.letters ('v' :: cs) = r.flag .verbose >>= (·.letters cs) := by
  rw [letters, show Switch.ofLetter? 'v' = some (.flag .verbose) from rfl]

-- Letters are no second hyphen.
theorem argument_letters (hss : Cluster ss cs more) (hr : r.pathsOnly = false) :
    r.argument (String.ofList ('-' :: cs)) = r.letters cs := by
  have hletter : ∀ {w : Switch} {c : Char}, w.letter? = some c → c ≠ '-' := by
    rintro w _ hw rfl
    exact nomatch (Switch.ofLetter?_of_letter? hw).symm.trans (by decide : _ = none)
  have ⟨c, cs', heq, hc⟩ : ∃ c cs', cs = c :: cs' ∧ c ≠ '-' := by
    cases hss
    case verbose | combined      => exact ⟨'v', _, rfl, by decide⟩
    case equals h | joined h _ _ => exact ⟨_, _, rfl, hletter h⟩
    case next h _                => exact ⟨_, _, rfl, hletter h⟩
  subst heq
  simp [argument, hr, hc]

theorem Reaches.cluster (hss : Cluster ss cs more) (h : r.Reaches p) (htake : ss.foldlM Options.take p = .ok q) :
    ∃ r₁ r₂, r.letters cs = .ok r₁ ∧ more.foldlM argument r₁ = .ok r₂ ∧ r₂.Reaches q := by
  induction hss generalizing r p
  case verbose =>
    rw [foldlM_single] at htake
    refine ⟨{ options := q }, _, ?_, rfl, reaches_options q⟩
    rw [letters_verbose, h.flag htake]
    rfl
  case equals hletter =>
    rw [foldlM_single] at htake
    exact ⟨_, _, (letters_equals hletter ..).trans (h.valued htake), rfl, reaches_options q⟩
  case joined hletter hne hhead =>
    rw [foldlM_single] at htake
    exact ⟨_, _, (letters_joined hletter hne hhead r).trans (h.valued htake), rfl, reaches_options q⟩
  case next hletter htext =>
    rw [foldlM_single] at htake
    have ⟨r₁, r₂, hvalued, hplain, hreaches⟩ := h.next htake htext
    exact ⟨r₁, r₂, (letters_name hletter r).trans hvalued, by rwa [foldlM_single], hreaches⟩
  case combined hi =>
    rw [foldlM_cons] at htake
    obtain ⟨p', hraise, hrest⟩ := bind_eq_ok_iff.mp htake
    have ⟨r₁, r₂, hletters, hmore, hreaches⟩ := hi (reaches_options p') hrest
    refine ⟨r₁, r₂, ?_, hmore, hreaches⟩
    rw [letters_verbose, h.flag hraise]
    exact hletters

-- What is written for some settings is read as taking them.
theorem Reaches.written (hss : Written ss args) (h : r.Reaches p) (htake : ss.foldlM Options.take p = .ok q) :
    ∃ r', args.foldlM argument r = .ok r' ∧ r'.Reaches q := by
  cases hss
  case long s =>
    rw [foldlM_single] at htake
    refine ⟨{ options := q }, ?_, reaches_options q⟩
    rw [foldlM_single]
    cases s
    case valued v text => rw [argument_equals h.pathsOnly, h.valued htake]
    case flag f        => exact (argument_name h.pathsOnly (.flag f)).trans (h.flag htake)
  case next htext =>
    rw [foldlM_single] at htake
    have ⟨r₁, r₂, hvalued, hplain, hreaches⟩ := h.next htake htext
    have hname := (argument_name h.pathsOnly (.valued _)).trans hvalued
    refine ⟨r₂, ?_, hreaches⟩
    rw [foldlM_cons, hname]
    exact foldlM_single.trans hplain
  case letters hcluster =>
    have ⟨r₁, r₂, hletters, hmore, hreaches⟩ := h.cluster hcluster htake
    refine ⟨r₂, ?_, hreaches⟩
    rw [foldlM_cons, argument_letters hcluster h.pathsOnly, hletters]
    exact hmore

theorem Reaches.spelled (hss : Spelled ss args) (h : r.Reaches p) (htake : ss.foldlM Options.take p = .ok q) :
    ∃ r', args.foldlM argument r = .ok r' ∧ r'.Reaches q := by
  induction hss generalizing r p
  case nil =>
    cases htake
    exact ⟨r, rfl, h⟩
  case cons hwritten _ hi =>
    rw [foldlM_append] at htake
    obtain ⟨p', htake, hrest⟩ := bind_eq_ok_iff.mp htake
    have ⟨r', hfold, hreaches⟩ := h.written hwritten htake
    have ⟨r'', hfold', hreaches'⟩ := hi hreaches hrest
    refine ⟨r'', ?_, hreaches'⟩
    rw [foldlM_append, hfold]
    exact hfold'

end Reading

namespace Options

variable {o : Options} {ss : List Setting} {args : List String}

theorem ofArgs_spelled (h : o.Complete) (hss : ss ~ o.settings) (hargs : Spelled ss args) :
    ofArgs (args ++ "--" :: o.files) = .ok o := by
  have ⟨r, hfold, hreaches⟩ := (Reading.reaches_options {}).spelled hargs <| foldlM_take_settings h hss
  have hhyphens : r.argument "--" = .ok { r with pathsOnly := true } := by
    simp [Reading.argument, hreaches.pathsOnly]
  have ⟨r', hfold', hsettle⟩ := Reading.settle_paths (Reading.settle_pathsOnly hreaches) rfl h.files
  have hneeded : (o.files.isEmpty && !o.printSchema) = false := by
    obtain hfiles | hschema := h.needed
    · simp [hfiles]
    · simp [hschema]
  have hpaths : ("--" :: o.files).foldlM Reading.argument r = .ok r' := by
    rw [foldlM_cons, hhyphens]
    exact hfold'
  rw [ofArgs, foldlM_append]
  refine bind_eq_ok_iff.mpr ⟨r', bind_eq_ok_iff.mpr ⟨r, hfold, hpaths⟩, ?_⟩
  rw [Reading.finish, hsettle]
  simp only [ok_bind, nil_append, hneeded]
  rfl

-- How options come back from the command lines that are written for them.
structure Parses (o : Options) : Prop where
  -- All that is asked for may be written with long names, in any order,
  long    : ∀ ss, ss ~ o.settings → ofArgs (ss.map Setting.long ++ "--" :: o.files) = .ok o
  -- and each part of it in any other way.
  spelled : ∀ ss args, ss ~ o.settings → Spelled ss args → ofArgs (args ++ "--" :: o.files) = .ok o

theorem spelled_long (ss : List Setting) : Spelled ss (ss.map Setting.long) := by
  induction ss
  case nil          => exact .nil
  case cons s ss hi => exact .cons (.long s) hi

theorem parses (h : o.Complete) : Parses o where
  long ss hss           := ofArgs_spelled h hss <| spelled_long ss
  spelled _ _ hss hargs := ofArgs_spelled h hss hargs

-- A value and a file that look like options.
theorem parses_hyphens :
    Complete { files := ["--"], memoizeModule := some "-v", verbose := true } ∧
      Parses { files := ["--"], memoizeModule := some "-v", verbose := true } :=
  have h : Complete { files := ["--"], memoizeModule := some "-v", verbose := true } :=
    ⟨⟨by decide, by decide, by decide⟩, .inl (by decide)⟩
  ⟨h, parses h⟩

example :
    ofArgs ["-vc", "-", "--memoize-module=-v", "--cache-size", "7", "--", "--list"] =
      .ok { files := ["--list"], config := some "-", memoizeModule := some "-v", cacheSize := some 7,
            verbose := true } := by
  decide +kernel

end Options

end RenderMemo.Command
