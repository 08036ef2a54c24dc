import RenderMemo.Command.Parser
import RenderMemo.Proofs.Prelude

open List

namespace RenderMemo.Command

-- What is asked for on a command line: an option with the text of its value, or a flag.
inductive Setting where
  | valued (v : Valued) (text : String)
  | flag (f : Flag)
deriving DecidableEq

namespace Setting

def switch : Setting → Switch
  | valued v _ => .valued v
  | flag f => .flag f

-- The one argument that consists of the name and the value.
def long : Setting → String
  | valued v text => "--" ++ (Switch.valued v).name ++ "=" ++ text
  | flag f => "--" ++ (Switch.flag f).name

end Setting

namespace Options

-- The text of the value that an option has.
def value? (o : Options) : Valued → Option String
  | .config => o.config
  | .cacheSize => o.cacheSize.map toString
  | .memoizeModule => o.memoizeModule
  | .importStyle => o.importStyle.map styleName
  | .outDir => o.outDir

-- No options ask for help, which ends the reading.
def isRaised (o : Options) : Flag → Bool
  | .dedupeCaptures => o.dedupeCaptures
  | .list => o.list
  | .printSchema => o.printSchema
  | .verbose => o.verbose
  | .help => false

def setting? (o : Options) : Switch → Option Setting
  | .valued v => (o.value? v).map (.valued v)
  | .flag f => if o.isRaised f then some (.flag f) else none

-- All that options ask for, apart from the files.
def settings (o : Options) : List Setting := Switch.all.filterMap o.setting?

-- No path is empty.
structure NamesPaths (o : Options) : Prop where
  files  : "" ∉ o.files
  config : o.config ≠ some ""
  outDir : o.outDir ≠ some ""

-- And what is needed is there.
structure Complete (o : Options) : Prop extends o.NamesPaths where
  needed : o.files ≠ [] ∨ o.printSchema

-- Takes a setting for a switch that was not given before.
def take (o : Options) : Setting → Except UsageError Options
  | .valued v text => o.assign v text
  | .flag f => o.raise f

end Options

theorem sizeOfText?_toString (size : UInt64) : sizeOfText? (toString size) = some size := by
  have htext : (toString size).toList = Nat.toDigits 10 size.toNat := by
    change (toString size.toNat).toList = _
    rw [Nat.toString_eq_ofList_toDigits, String.toList_ofList]
  have hdigits : ∀ d ∈ Nat.toDigits 10 size.toNat, d.isDigit :=
    fun d hd => Nat.isDigit_of_mem_toDigits (by decide) (by decide) hd
  have hvalue : Nat.ofDigitChars 10 (Nat.toDigits 10 size.toNat) 0 = size.toNat := Nat.ofDigitChars_ten_toDigits
  rw [Nat.ofDigitChars_eq_foldl] at hvalue
  obtain ⟨d, ds, hds⟩ := exists_cons_of_ne_nil (Nat.toDigits_ne_nil (n := size.toNat) (b := 10))
  rw [hds] at htext hdigits hvalue
  have hplus : d ≠ '+' := by
    rintro rfl
    exact absurd (hdigits '+' mem_cons_self) (by decide)
  have hall : (d :: ds).all Char.isDigit = true := all_eq_true.mpr hdigits
  simp only [sizeOfText?, htext]
  split
  case h_1 heq => exact absurd (cons.inj heq).1 hplus
  case h_2 =>
    rw [hall, hvalue, if_pos size.toNat_lt_size]
    simp

theorem styleOfName?_styleName (style : ImportStyle) : styleOfName? (styleName style) = some style := by
  cases style <;> rfl

namespace Switch

theorem mem_all (w : Switch) : w ∈ all := by
  cases w
  case valued v => cases v <;> decide
  case flag f   => cases f <;> decide

theorem ofName?_name (w : Switch) : ofName? w.name = some w := by
  cases w
  case valued v => cases v <;> decide
  case flag f   => cases f <;> decide

theorem ofLetter?_of_letter? {w : Switch} {c : Char} (h : w.letter? = some c) : ofLetter? c = some w := by
  cases w
  case valued v => cases v <;> simp [letter?] at h <;> subst h <;> rfl
  case flag f   => cases f <;> simp [letter?] at h <;> subst h <;> rfl

theorem ne_equals_of_mem_name (w : Switch) : ∀ c ∈ w.name.toList, c != '=' := by
  rw [← all_eq_true]
  cases w
  case valued v => cases v <;> decide
  case flag f   => cases f <;> decide

theorem name_ne_nil (w : Switch) : w.name.toList ≠ [] := by
  cases w
  case valued v => cases v <;> decide
  case flag f   => cases f <;> decide

end Switch

namespace Options

variable {o p q : Options} {s : Setting} {ss : List Setting} {w : Switch}

theorem switch_of_setting? (h : o.setting? w = some s) : s.switch = w := by
  cases w
  case valued v =>
    obtain ⟨text, _, rfl⟩ := Option.map_eq_some_iff.mp h
    rfl
  case flag f =>
    simp only [setting?, Option.ite_none_right_eq_some, Option.some.injEq] at h
    obtain ⟨_, rfl⟩ := h
    rfl

theorem mem_settings : s ∈ o.settings ↔ o.setting? s.switch = some s := by
  rw [settings, mem_filterMap]
  constructor
  case mp =>
    rintro ⟨w, _, h⟩
    rwa [switch_of_setting? h]
  case mpr => exact fun h => ⟨s.switch, Switch.mem_all _, h⟩

theorem nodup_settings (o : Options) : (o.settings.map Setting.switch).Nodup := by
  have hswitch : ∀ w, (o.setting? w).map Setting.switch = if (o.setting? w).isSome then some w else none := by
    intro w
    cases h : o.setting? w
    case none   => rfl
    case some s => simp [switch_of_setting? h]
  have hfilter : o.settings.map Setting.switch = Switch.all.filter fun w => (o.setting? w).isSome := by
    rw [settings, map_filterMap, ← filterMap_eq_filter]
    exact congrArg (filterMap · _) <| funext fun w => by simp [hswitch w, Option.guard]
  rw [hfilter]
  exact filter_sublist.nodup (by decide)

theorem value?_of_setting? (o : Options) (v : Valued) :
    o.value? v = (o.setting? (.valued v)).bind fun | .valued _ text => some text | .flag _ => none := by
  cases h : o.value? v <;> simp [setting?, h]

theorem isRaised_of_setting? (o : Options) (f : Flag) : o.isRaised f = (o.setting? (.flag f)).isSome := by
  cases h : o.isRaised f <;> simp [setting?, h]

theorem toString_injective : Function.Injective (toString : UInt64 → String) :=
  fun m n h => Option.some.inj <| by rw [← sizeOfText?_toString m, h, sizeOfText?_toString]

theorem styleName_injective : Function.Injective styleName :=
  fun s t h => Option.some.inj <| by rw [← styleOfName?_styleName s, h, styleOfName?_styleName]

-- Options are determined by their files and by what they ask for.
theorem ext_setting? (hfiles : o.files = p.files) (h : ∀ w, o.setting? w = p.setting? w) : o = p := by
  have hvalue : ∀ v, o.value? v = p.value? v :=
    fun v => by rw [value?_of_setting?, value?_of_setting?, h]
  have hflag : ∀ f, o.isRaised f = p.isRaised f :=
    fun f => by rw [isRaised_of_setting?, isRaised_of_setting?, h]
  have hsize := Option.map_injective toString_injective (hvalue .cacheSize)
  have hstyle := Option.map_injective styleName_injective (hvalue .importStyle)
  obtain ⟨⟩ := o
  obtain ⟨⟩ := p
  exact (mk.injEq ..).mpr ⟨hfiles, hvalue .config, hsize, hvalue .memoizeModule, hstyle, hflag .dedupeCaptures,
    hvalue .outDir, hflag .list, hflag .printSchema, hflag .verbose⟩

theorem has_eq (o : Options) (v : Valued) : o.has v = (o.value? v).isSome := by
  cases v <;> simp [has, value?]

-- Takes over what other options ask for with a switch.
def put (p o : Options) : Switch → Options
  | .valued .config => { p with config := o.config }
  | .valued .cacheSize => { p with cacheSize := o.cacheSize }
  | .valued .memoizeModule => { p with memoizeModule := o.memoizeModule }
  | .valued .importStyle => { p with importStyle := o.importStyle }
  | .valued .outDir => { p with outDir := o.outDir }
  | .flag .dedupeCaptures => { p with dedupeCaptures := o.dedupeCaptures }
  | .flag .list => { p with list := o.list }
  | .flag .printSchema => { p with printSchema := o.printSchema }
  | .flag .verbose => { p with verbose := o.verbose }
  | .flag .help => p

@[simp]
theorem files_put (p o : Options) (w : Switch) : (p.put o w).files = p.files := by
  cases w
  case valued v => cases v <;> rfl
  case flag f   => cases f <;> rfl

theorem setting?_put (p o : Options) (w w' : Switch) :
    (p.put o w).setting? w' = if w' = w then o.setting? w' else p.setting? w' := by
  cases w
  case valued v =>
    cases w'
    case valued v' => cases v <;> cases v' <;> rfl
    case flag f'   => cases v <;> cases f' <;> rfl
  case flag f =>
    cases w'
    case valued v' => cases f <;> cases v' <;> rfl
    case flag f'   => cases f <;> cases f' <;> rfl

theorem assign_value (h : o.Complete) {v : Valued} {text : String} (htext : o.value? v = some text)
    (hfree : p.has v = false) : p.assign v text = .ok (p.put o (.valued v)) := by
  cases v
  case config =>
    have hpath : text ≠ "" := fun hempty => h.config (hempty ▸ htext)
    have hconfig : o.config = some text := htext
    simp [assign, hfree, pathOfText, hpath, put, hconfig]
  case outDir =>
    have hpath : text ≠ "" := fun hempty => h.outDir (hempty ▸ htext)
    have houtDir : o.outDir = some text := htext
    simp [assign, hfree, pathOfText, hpath, put, houtDir]
  case memoizeModule =>
    have hmodule : o.memoizeModule = some text := htext
    simp [assign, hfree, put, hmodule]
  case cacheSize =>
    obtain ⟨size, hsize, rfl⟩ := Option.map_eq_some_iff.mp htext
    simp [assign, hfree, sizeOfText?_toString, put, hsize]
  case importStyle =>
    obtain ⟨style, hstyle, rfl⟩ := Option.map_eq_some_iff.mp htext
    simp [assign, hfree, styleOfName?_styleName, put, hstyle]

theorem raise_raised {f : Flag} (hf : o.isRaised f) (hfree : p.isRaised f = false) :
    p.raise f = .ok (p.put o (.flag f)) := by
  cases f
  case help => cases hf
  all_goals
    rw [isRaised] at hf hfree
    simp [raise, hfree, put, hf]

theorem take_setting (h : o.Complete) (hs : s ∈ o.settings) (hfree : p.setting? s.switch = none) :
    p.take s = .ok (p.put o s.switch) := by
  rw [mem_settings] at hs
  cases s
  case valued v text =>
    rw [Setting.switch] at hs hfree
    refine assign_value h ?htext ?hfree
    case htext => rw [value?_of_setting?, hs, Option.bind_some]
    case hfree => rw [has_eq, value?_of_setting?, hfree, Option.bind_none, Option.isSome_none]
  case flag f =>
    rw [Setting.switch] at hs hfree
    refine raise_raised ?hf ?hfree
    case hf    => rw [isRaised_of_setting?, hs, Option.isSome_some]
    case hfree => rw [isRaised_of_setting?, hfree, Option.isSome_none]

-- Settings with different switches are all taken, in any order.
theorem exists_foldlM_take (h : o.Complete) (hss : ∀ s ∈ ss, s ∈ o.settings)
    (hnodup : (ss.map Setting.switch).Nodup) (hfree : ∀ s ∈ ss, p.setting? s.switch = none) :
    ∃ q, ss.foldlM take p = .ok q ∧ q.files = p.files ∧
      ∀ w, q.setting? w = if w ∈ ss.map Setting.switch then o.setting? w else p.setting? w := by
  induction ss generalizing p
  case nil => exact ⟨p, rfl, rfl, by simp⟩
  case cons s ss hi =>
    rw [forall_mem_cons] at hss hfree
    rw [map_cons, nodup_cons] at hnodup
    have hrest : ∀ s' ∈ ss, (p.put o s.switch).setting? s'.switch = none := by
      intro s' hs'
      have hne : s'.switch ≠ s.switch := fun heq => hnodup.1 (heq ▸ mem_map_of_mem hs')
      rw [setting?_put, if_neg hne, hfree.2 s' hs']
    have ⟨q, hfold, hfiles, hq⟩ := hi hss.2 hnodup.2 hrest
    refine ⟨q, ?_, hfiles.trans <| files_put .., fun w => ?_⟩
    case refine_1 =>
      rw [foldlM_cons, take_setting h hss.1 hfree.1]
      exact hfold
    case refine_2 =>
      rw [hq, setting?_put, map_cons]
      split <;> split <;> simp_all

-- All that options ask for leads back to them, whatever comes first. Only the files are missing.
theorem foldlM_take_settings (h : o.Complete) (hss : ss ~ o.settings) :
    ss.foldlM take {} = .ok { o with files := [] } := by
  have hnodup : (ss.map Setting.switch).Nodup := (hss.map _).nodup_iff.mpr o.nodup_settings
  have hfree : ∀ w, ({} : Options).setting? w = none := by
    intro w
    cases w
    case valued v => cases v <;> rfl
    case flag f   => cases f <;> rfl
  have ⟨q, hfold, hfiles, hq⟩ :=
    exists_foldlM_take h (fun _ => hss.mem_iff.mp) hnodup fun s _ => hfree s.switch
  rw [hfold]
  refine congrArg Except.ok <| ext_setting? hfiles fun w => ?_
  change q.setting? w = o.setting? w
  rw [hq, hfree]
  split
  case isTrue => rfl
  case isFalse hw =>
    refine Eq.symm <| Option.eq_none_iff_forall_ne_some.mpr fun s hs => hw ?_
    obtain rfl := switch_of_setting? hs
    exact mem_map_of_mem <| hss.mem_iff.mpr <| mem_settings.mpr hs

end Options

end RenderMemo.Command
