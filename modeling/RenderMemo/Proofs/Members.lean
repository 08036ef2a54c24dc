import RenderMemo.Config.Reader
import RenderMemo.Proofs.Tokens

open List

namespace RenderMemo.Json

section

variable {α : Type} (R : α → List (List Char) → Prop)

-- Items that are separated by commas, up to a closing bracket.
inductive Listed (closing : Char) : List α → List (List Char) → Prop
  | last {a : α} {vs : List (List Char)} : R a vs → Listed closing [a] (vs ++ [[closing]])
  | cons {a : α} {as : List α} {vs ts : List (List Char)} :
      R a vs → Listed closing as ts → Listed closing (a :: as) (vs ++ [','] :: ts)

variable {R} in
theorem Listed.ne_nil {closing : Char} {as : List α} {ts : List (List Char)} (h : Listed R closing as ts) :
    as ≠ [] := by
  cases h <;> simp

variable {R} in
theorem Listed.length_le {closing : Char} {as : List α} {ts : List (List Char)} (h : Listed R closing as ts) :
    as.length ≤ ts.length := by
  induction h
  case last => simp
  case cons hi =>
    simp only [length_cons, length_append]
    omega

-- Items between brackets.
inductive Bracketed (opening closing : Char) : List α → List (List Char) → Prop
  | empty : Bracketed opening closing [] [[opening], [closing]]
  | items {as : List α} {ts : List (List Char)} :
      Listed R closing as ts → Bracketed opening closing as ([opening] :: ts)

end

-- A member of an object, by its name and the tokens of its value.
structure Entry where
  name  : String
  value : List (List Char)

def Entry.Spelled (e : Entry) (ts : List (List Char)) : Prop :=
  ∃ key, Spells e.name.toList key ∧ ts = quoted key :: [':'] :: e.value

-- The text of an object with some members.
def IsObject (es : List Entry) (text : String) : Prop :=
  ∃ ts, Bracketed Entry.Spelled '\x7b' '\x7d' es ts ∧ Spaced ts text.toList

end RenderMemo.Json

namespace RenderMemo.Settings

open Json

-- A known member with its value.
inductive Given where
  | cacheSize (size : UInt64)
  | memoizeModule (name : String)
  | importStyle (style : ImportStyle)
  | dedupeCaptures (flag : Bool)
deriving DecidableEq

namespace Given

def member : Given → Member
  | cacheSize _ => .cacheSize
  | memoizeModule _ => .memoizeModule
  | importStyle _ => .importStyle
  | dedupeCaptures _ => .dedupeCaptures

-- The ways to write the value of a known member.
inductive Spelled : Given → List (List Char) → Prop
  | size {size : UInt64} {digits : List Char} :
      IsWhole digits → Nat.ofDigitChars 10 digits 0 = size.toNat → Spelled (cacheSize size) [digits]
  | name {name : String} {body : List Char} :
      Spells name.toList body → Spelled (memoizeModule name) [quoted body]
  | style {style : ImportStyle} {body : List Char} :
      Spells style.text.toList body → Spelled (importStyle style) [quoted body]
  | styleKey {style : ImportStyle} {body : List Char} :
      Spells style.text.toList body →
      Spelled (importStyle style) [['\x7b'], quoted body, [':'], ['n', 'u', 'l', 'l'], ['\x7d']]
  | on : Spelled (dedupeCaptures true) [['t', 'r', 'u', 'e']]
  | off : Spelled (dedupeCaptures false) [['f', 'a', 'l', 's', 'e']]

theorem Spelled.isValue {g : Given} {vs : List (List Char)} (h : g.Spelled vs) : IsValue vs := by
  cases h
  case size hwhole _ => exact .number <| by simpa using IsNumber.positive hwhole .none .none
  case name h        => exact .string h.isBody
  case style h       => exact .string h.isBody
  case styleKey h    => exact .object <| .last h.isBody <| .word <| by simp
  case on            => exact .word <| by simp
  case off           => exact .word <| by simp

end Given

-- What a member of an object holds, if it is known. The value of an unknown one may be any value.
inductive Holds : Entry → Option Given → Prop
  | known {g : Given} {vs : List (List Char)} : g.Spelled vs → Holds ⟨g.member.key, vs⟩ (some g)
  | unknown {e : Entry} : (∀ m : Member, e.name ≠ m.key) → IsValue e.value → Holds e none

-- Known members, in their order, among unknown ones.
inductive Mixed : List Given → List Entry → Prop
  | nil : Mixed [] []
  | cons {e : Entry} {o : Option Given} {gs : List Given} {es : List Entry} :
      Holds e o → Mixed gs es → Mixed (o.toList ++ gs) (e :: es)

theorem Mixed.known {g : Given} {gs : List Given} {es : List Entry} {vs : List (List Char)} (h : g.Spelled vs)
    (hes : Mixed gs es) : Mixed (g :: gs) (⟨g.member.key, vs⟩ :: es) :=
  .cons (.known h) hes

-- The value that settings have for a member.
def value (s : Settings) : Member → Given
  | .cacheSize => .cacheSize s.cacheSize
  | .memoizeModule => .memoizeModule s.memoizeModule
  | .importStyle => .importStyle s.importStyle
  | .dedupeCaptures => .dedupeCaptures s.dedupeCaptures

theorem ext_value {s₁ s₂ : Settings} (h : ∀ m, s₁.value m = s₂.value m) : s₁ = s₂ := by
  have h₁ := h .cacheSize
  have h₂ := h .memoizeModule
  have h₃ := h .importStyle
  have h₄ := h .dedupeCaptures
  cases s₁
  cases s₂
  simp_all [value]

section

variable {ts vs : List (List Char)} {cs body : List Char}

theorem readSize_spaced {size : UInt64} {digits : List Char} (hwhole : IsWhole digits)
    (hvalue : Nat.ofDigitChars 10 digits 0 = size.toNat) (hts : Follows ts) (hcs : Spaced (digits :: ts) cs) :
    ∃ rest, readSize cs = .ok (size, rest) ∧ Spaced ts rest := by
  obtain ⟨d, ds, rfl⟩ := exists_cons_of_ne_nil hwhole.isDigits.1
  have hd := hwhole.isDigits.2 d mem_cons_self
  have ⟨rest, hdrop, hrest⟩ := hcs.dropSpace_cons (isSpace_of_numeric (.inr hd))
  rw [← Numeral.digitsValue_eq] at hvalue
  have hlt : Numeral.digitsValue (d :: ds) < UInt64.size := hvalue ▸ size.toNat_lt_size
  have hread := readNumber_isWhole hwhole hlt (hrest.not_isNumeric hts)
  rw [cons_append] at hread
  refine ⟨rest, ?_, hrest⟩
  simp [readSize, hdrop, hd, hread, Numeral.integer?, hvalue, UInt64.toNat_lt_size]

theorem readModule_spaced {name : String} (hname : Spells name.toList body)
    (hcs : Spaced (quoted body :: ts) cs) : ∃ rest, readModule cs = .ok (name, rest) ∧ Spaced ts rest := by
  have ⟨rest, hdrop, hrest⟩ := hcs.dropSpace_quoted
  exact ⟨rest, by simp [readModule, hdrop, readString_spells hname], hrest⟩

theorem readName_spells {style : ImportStyle} {rest : List Char} (h : Spells style.text.toList body) :
    ImportStyle.readName (body ++ '"' :: rest) = .ok (style, rest) := by
  simp [ImportStyle.readName, readString_spells h]

theorem readFlag_spaced {flag : Bool} (h : (Given.dedupeCaptures flag).Spelled vs) (hcs : Spaced (vs ++ ts) cs) :
    ∃ rest, readFlag cs = .ok (flag, rest) ∧ Spaced ts rest := by
  cases h
  all_goals
    obtain ⟨rest, hdrop, hrest⟩ := hcs.dropSpace_cons (by decide)
    exact ⟨rest, by simp [readFlag, hdrop, readWord], hrest⟩

theorem readStyle_spaced {style : ImportStyle} (h : (Given.importStyle style).Spelled vs)
    (hcs : Spaced (vs ++ ts) cs) : ∃ rest, readStyle cs = .ok (style, rest) ∧ Spaced ts rest := by
  cases h
  case style h =>
    obtain ⟨rest, hdrop, hrest⟩ := hcs.dropSpace_quoted
    exact ⟨rest, by simp [readStyle, hdrop, readName_spells h], hrest⟩
  case styleKey h =>
    obtain ⟨inner, hdrop, hinner⟩ := hcs.dropSpace_cons (by decide)
    obtain ⟨key, hkey, hafter⟩ := hinner.dropSpace_quoted
    obtain ⟨colon, hcolon, hnull⟩ := hafter.afterColon
    obtain ⟨closing, hclosing, hend⟩ := hnull.dropSpace_cons (by decide)
    obtain ⟨rest, hrest, hts⟩ := hend.dropSpace_cons (by decide)
    refine ⟨rest, ?_, hts⟩
    simp [readStyle, hdrop, hkey, readName_spells h, hcolon, readNull, hclosing, readWord, hrest]

end

namespace Draft

def put (d : Draft) : Given → Draft
  | .cacheSize size => { d with cacheSize := some size }
  | .memoizeModule name => { d with memoizeModule := some name }
  | .importStyle style => { d with importStyle := some style }
  | .dedupeCaptures flag => { d with dedupeCaptures := some flag }

-- The value that was read for a member.
def value? (d : Draft) : Member → Option Given
  | .cacheSize => d.cacheSize.map .cacheSize
  | .memoizeModule => d.memoizeModule.map .memoizeModule
  | .importStyle => d.importStyle.map .importStyle
  | .dedupeCaptures => d.dedupeCaptures.map .dedupeCaptures

-- Takes members one after the other, as long as none comes twice.
def putAll? (d : Draft) : List Given → Option Draft
  | [] => some d
  | g :: gs => if d.has g.member then none else (d.put g).putAll? gs

section

variable {d : Draft} {g : Given} {gs : List Given} {m : Member}

theorem has_eq (d : Draft) (m : Member) : d.has m = (d.value? m).isSome := by
  cases m <;> simp [has, value?]

@[simp]
theorem value?_put (d : Draft) (g : Given) (m : Member) :
    (d.put g).value? m = if m = g.member then some g else d.value? m := by
  cases g <;> cases m <;> simp [put, value?, Given.member]

theorem value_settings (d : Draft) (m : Member) :
    d.settings.value m = (d.value? m).getD (({} : Settings).value m) := by
  cases m
  case cacheSize      => cases h : d.cacheSize <;> simp [settings, value, value?, h]
  case memoizeModule  => cases h : d.memoizeModule <;> simp [settings, value, value?, h]
  case importStyle    => cases h : d.importStyle <;> simp [settings, value, value?, h]
  case dedupeCaptures => cases h : d.dedupeCaptures <;> simp [settings, value, value?, h]

@[simp]
theorem has_put (d : Draft) (g : Given) (m : Member) : (d.put g).has m = (decide (m = g.member) || d.has m) := by
  rw [has_eq, has_eq, value?_put]
  split <;> simp_all

theorem putAll?_of_has (hd : d.has m) (hm : m ∈ gs.map Given.member) : d.putAll? gs = none := by
  induction gs generalizing d
  case nil => simp at hm
  case cons g gs hi =>
    rw [putAll?]
    split
    case isTrue => rfl
    case isFalse hg =>
      have hne : m ≠ g.member := fun heq => hg (heq ▸ hd)
      rw [map_cons, mem_cons] at hm
      exact hi (by simp [hd]) (hm.resolve_left hne)

theorem putAll?_of_not_nodup (h : ¬(gs.map Given.member).Nodup) : d.putAll? gs = none := by
  induction gs generalizing d
  case nil => simp at h
  case cons g gs hi =>
    rw [putAll?]
    split
    case isTrue => rfl
    case isFalse =>
      by_cases hmem : g.member ∈ gs.map Given.member
      case pos => exact putAll?_of_has (by simp) hmem
      case neg => exact hi fun hnodup => h <| nodup_cons.mpr ⟨hmem, hnodup⟩

theorem putAll?_of_nodup (h : (gs.map Given.member).Nodup) (hd : ∀ g ∈ gs, d.has g.member = false) :
    d.putAll? gs = some (gs.foldl put d) := by
  induction gs generalizing d
  case nil => rfl
  case cons g gs hi =>
    rw [map_cons, nodup_cons] at h
    rw [putAll?, hd g mem_cons_self]
    refine hi h.2 fun g' hg' => ?_
    have hne : g'.member ≠ g.member := fun heq => h.1 (heq ▸ mem_map_of_mem hg')
    simp [hne, hd g' (mem_cons_of_mem _ hg')]

theorem value?_foldl_of_not_mem (h : m ∉ gs.map Given.member) : (gs.foldl put d).value? m = d.value? m := by
  induction gs generalizing d
  case nil => rfl
  case cons g gs hi =>
    rw [map_cons, mem_cons, not_or] at h
    rw [foldl_cons, hi h.2, value?_put, if_neg h.1]

theorem value?_foldl_of_mem (h : (gs.map Given.member).Nodup) (hg : g ∈ gs) :
    (gs.foldl put d).value? g.member = some g := by
  induction gs generalizing d
  case nil => simp at hg
  case cons g' gs hi =>
    rw [map_cons, nodup_cons] at h
    rw [foldl_cons]
    cases hg
    case head    => rw [value?_foldl_of_not_mem h.1, value?_put, if_pos rfl]
    case tail h' => exact hi h.2 h'

end

section

variable {d : Draft} {g : Given} {gs : List Given} {e : Entry} {es us : List Entry} {m : Member}
  {vs ts : List (List Char)} {cs : List Char} {n : Nat}

theorem read_spelled (h : g.Spelled vs) (hts : Follows ts) (hcs : Spaced (vs ++ ts) cs) (d : Draft) :
    ∃ rest, d.read g.member cs = .ok (d.put g, rest) ∧ Spaced ts rest := by
  cases g
  case cacheSize size =>
    cases h
    case size hwhole hvalue =>
      have ⟨rest, hread, hrest⟩ := readSize_spaced hwhole hvalue hts hcs
      exact ⟨rest, by simp [Given.member, read, hread, put], hrest⟩
  case memoizeModule name =>
    cases h
    case name hname =>
      have ⟨rest, hread, hrest⟩ := readModule_spaced hname hcs
      exact ⟨rest, by simp [Given.member, read, hread, put], hrest⟩
  case importStyle style =>
    have ⟨rest, hread, hrest⟩ := readStyle_spaced h hcs
    exact ⟨rest, by simp [Given.member, read, hread, put], hrest⟩
  case dedupeCaptures flag =>
    have ⟨rest, hread, hrest⟩ := readFlag_spaced h hcs
    exact ⟨rest, by simp [Given.member, read, hread, put], hrest⟩

theorem ofKey?_key (m : Member) : Member.ofKey? m.key = some m := by
  cases m <;> decide

theorem ofKey?_of_ne {name : String} (h : ∀ m : Member, name ≠ m.key) : Member.ofKey? name = none := by
  simp only [Member.ofKey?, find?_eq_none, beq_iff_eq]
  exact fun m _ heq => h m heq.symm

-- That reading stops in front of some tokens with some members, or fails since a member comes twice.
def Reads (result : Except Fault (Draft × List Char)) (ts : List (List Char)) : Option Draft → Prop
  | some d => ∃ rest, result = .ok (d, rest) ∧ Spaced ts rest
  | none => result = .error .mistyped

theorem readMember_holds {o : Option Given} {key rest : List Char} (h : Holds e o)
    (hkey : Spells e.name.toList key) (hts : Follows ts) (hrest : Spaced ([':'] :: (e.value ++ ts)) rest)
    (d : Draft) : Reads (d.readMember (key ++ '"' :: rest)) ts (d.putAll? o.toList) := by
  have ⟨after, hcolon, hafter⟩ := hrest.afterColon
  cases h
  case known g vs hvalue =>
    have ⟨rest, hread, hrest⟩ := read_spelled hvalue hts hafter d
    cases hd : d.has g.member
    case true =>
      simp [Reads, putAll?, hd, readMember, readString_spells hkey, ofKey?_key]
      rfl
    case false =>
      simp only [Option.toList, putAll?, hd]
      refine ⟨rest, ?_, hrest⟩
      simp [readMember, readString_spells hkey, ofKey?_key, hd, hcolon, hread]
  case unknown hname hvalue =>
    have ⟨rest, hskip, hrest⟩ := hvalue.skipValue hts hafter
    refine ⟨rest, ?_, hrest⟩
    simp [readMember, readString_spells hkey, ofKey?_of_ne hname, hcolon, hskip]

theorem putAll?_append (gs hs : List Given) (d : Draft) :
    d.putAll? (gs ++ hs) = (d.putAll? gs).bind (·.putAll? hs) := by
  induction gs generalizing d
  case nil => rfl
  case cons g gs hi =>
    rw [cons_append, putAll?, putAll?]
    split
    case isTrue  => rfl
    case isFalse => exact hi (d.put g)

-- One member is read, and what follows it decides how to go on.
theorem readMembers_entry {o : Option Given} (h : Holds e o) (he : e.Spelled vs) (hts : Follows ts)
    (hcs : Spaced (vs ++ ts) cs) (n : Nat) (d : Draft) :
    (d.putAll? o.toList = none ∧ d.readMembers (n + 1) cs = .error .mistyped) ∨
      ∃ d' rest, d.putAll? o.toList = some d' ∧ Spaced ts rest ∧
        (∀ after, next '\x7d' rest = .ok (.closed after) → d.readMembers (n + 1) cs = .ok (d', after)) ∧
        ∀ after, next '\x7d' rest = .ok (.another after) →
          d.readMembers (n + 1) cs = d'.readMembers n after := by
  obtain ⟨key, hkey, rfl⟩ := he
  have ⟨after, hdrop, hafter⟩ := hcs.dropSpace_quoted
  have hmember := readMember_holds h hkey hts hafter d
  cases hput : d.putAll? o.toList
  case none =>
    rw [hput, Reads] at hmember
    exact .inl ⟨rfl, by simp [readMembers, hdrop, hmember]⟩
  case some d' =>
    rw [hput, Reads] at hmember
    have ⟨rest, hread, hrest⟩ := hmember
    refine .inr ⟨d', rest, rfl, hrest, fun after hnext => ?_, fun after hnext => ?_⟩
    all_goals simp [readMembers, hdrop, hread, hnext]

theorem readMembers_mixed (hes : Listed Entry.Spelled '\x7d' es ts) (h : Mixed gs es) (hn : es.length ≤ n)
    (hcs : Spaced (ts ++ vs) cs) (d : Draft) : Reads (d.readMembers n cs) vs (d.putAll? gs) := by
  induction hes generalizing gs d n cs
  case last e ts he =>
    cases n
    case zero => cases hn
    case succ n =>
      cases h
      case cons o gs hholds hnil =>
        cases hnil
        rw [append_assoc] at hcs
        rw [append_nil]
        obtain ⟨hput, hread⟩ | ⟨d', inner, hput, hinner, hread, _⟩ :=
          readMembers_entry hholds he (by simp [Follows]) hcs n d
        · rw [hput, hread, Reads]
        · have ⟨rest, hnext, hrest⟩ := hinner.next_closing (by decide) (by decide)
          rw [hput, hread rest hnext]
          exact ⟨rest, rfl, hrest⟩
  case cons e es ts us he _ hi =>
    cases n
    case zero => cases hn
    case succ n =>
      cases h
      case cons o gs hholds hmixed =>
        rw [append_assoc] at hcs
        rw [putAll?_append]
        obtain ⟨hput, hread⟩ | ⟨d', inner, hput, hinner, _, hread⟩ :=
          readMembers_entry hholds he follows_cons hcs n d
        · rw [hput, hread]
          rfl
        · have ⟨rest, hnext, hrest⟩ := hinner.next_comma '\x7d'
          rw [hput, hread rest hnext]
          exact hi hmixed (Nat.le_of_succ_le_succ hn) hrest d'

theorem exists_token_of_listed (h : Listed Given.Spelled ']' gs ts) :
    ∃ c t us, ts = (c :: t) :: us ∧ isSpace c = false ∧ c ≠ ']' := by
  cases h
  case last hg | cons hg _ =>
    obtain ⟨c, t, us, rfl, hc⟩ := hg.isValue.head_cases
    exact ⟨c, t, _, rfl, hc⟩

theorem readInOrder_listed (hgs : Listed Given.Spelled ']' gs ts) (hcs : Spaced (ts ++ vs) cs) (d : Draft)
    {members : List Member} (hmembers : gs.map Given.member <+: members) :
    ∃ rest, d.readInOrder members cs = .ok (gs.foldl put d, rest) ∧ Spaced vs rest := by
  induction hgs generalizing d cs members
  case last g ts hg =>
    obtain ⟨members, rfl⟩ := hmembers
    rw [append_assoc] at hcs
    have ⟨inner, hread, hinner⟩ := read_spelled hg (by simp [Follows]) hcs d
    have ⟨rest, hdrop, hrest⟩ := hinner.dropSpace_cons (by decide)
    exact ⟨rest, by simp [readInOrder, hread, hdrop], hrest⟩
  case cons g gs ts us hg hgs hi =>
    obtain ⟨members, rfl⟩ := hmembers
    rw [append_assoc] at hcs
    have ⟨inner, hread, hinner⟩ := read_spelled hg follows_cons hcs d
    have ⟨rest, hdrop, hrest⟩ := hinner.dropSpace_cons (by decide)
    have hmore : gs ≠ [] := hgs.ne_nil
    obtain ⟨c, t, us', rfl, hspace, hne⟩ := exists_token_of_listed hgs
    have ⟨after, hafter, _⟩ := hrest.dropSpace_cons hspace
    have ⟨rest, hreads, hrest⟩ := hi (hrest.dropSpace hspace) (d.put g) (prefix_append _ members)
    rw [hafter] at hreads
    exact ⟨rest, by simp [readInOrder, hread, hdrop, hafter, hmore, hne, hreads], hrest⟩

end

end Draft

-- The text of an array with the values of some members.
def IsArray (gs : List Given) (text : String) : Prop :=
  ∃ ts, Bracketed Given.Spelled '[' ']' gs ts ∧ Spaced ts text.toList

-- What known members come to: their values, and the default for every member that is not among them.
structure Gathered (gs : List Given) (s : Settings) : Prop where
  given  : ∀ g ∈ gs, s.value g.member = g
  absent : ∀ m, m ∉ gs.map Given.member → s.value m = ({} : Settings).value m

section

variable {gs hs : List Given} {es : List Entry} {text : String} {s s₁ s₂ : Settings}

theorem Gathered.unique (h₁ : Gathered gs s₁) (h₂ : Gathered gs s₂) : s₁ = s₂ := by
  refine ext_value fun m => ?_
  by_cases hm : m ∈ gs.map Given.member
  case pos =>
    obtain ⟨g, hg, rfl⟩ := mem_map.mp hm
    rw [h₁.given g hg, h₂.given g hg]
  case neg => rw [h₁.absent m hm, h₂.absent m hm]

theorem Gathered.perm (h : Gathered gs s) (hperm : hs ~ gs) : Gathered hs s where
  given g hg  := h.given g (hperm.mem_iff.mp hg)
  absent m hm := h.absent m fun hmem => hm <| (hperm.map _).mem_iff.mpr hmem

theorem gathered_foldl (h : (gs.map Given.member).Nodup) : Gathered gs (gs.foldl Draft.put {}).settings where
  given g hg  := by rw [Draft.value_settings, Draft.value?_foldl_of_mem h hg, Option.getD_some]
  absent m hm := by
    rw [Draft.value_settings, Draft.value?_foldl_of_not_mem hm]
    cases m <;> rfl

theorem exists_token_of_entries {ts : List (List Char)} (h : Listed Entry.Spelled '\x7d' es ts) :
    ∃ t us, ts = ('"' :: t) :: us := by
  cases h
  case last he | cons he _ =>
    obtain ⟨key, _, rfl⟩ := he
    exact ⟨_, _, rfl⟩

theorem ofText?_object (h : Mixed gs es) (htext : IsObject es text) :
    ofText? text =
      match ({} : Draft).putAll? gs with
      | some d => .ok d.settings
      | none => .error .mistyped := by
  obtain ⟨ts, hts, htext⟩ := htext
  cases hts
  case empty =>
    cases h
    obtain ⟨inner, hdrop, hinner⟩ := htext.dropSpace_cons (by decide)
    obtain ⟨rest, hcloses, hrest⟩ := hinner.closesAtOnce (by decide)
    simp [ofText?, read, hdrop, hcloses, Draft.putAll?, atEnd, hrest.dropSpace_nil]
  case items ts hlisted =>
    obtain ⟨inner, hdrop, hinner⟩ := htext.dropSpace_cons (by decide)
    rw [nil_append] at hdrop
    have hcloses : closesAtOnce '\x7d' inner = .ok none := by
      obtain ⟨t, us, rfl⟩ := exists_token_of_entries hlisted
      exact hinner.closesAtOnce_of_ne (by decide) (by decide)
    have hsteps : es.length ≤ inner.length + 1 :=
      Nat.le_succ_of_le <| Nat.le_trans hlisted.length_le hinner.length_le
    have hreads := Draft.readMembers_mixed hlisted h hsteps (append_nil ts ▸ hinner) {}
    cases hput : ({} : Draft).putAll? gs
    case none =>
      rw [hput, Draft.Reads] at hreads
      simp [ofText?, read, hdrop, hcloses, hreads]
    case some d =>
      rw [hput, Draft.Reads] at hreads
      obtain ⟨rest, hread, hrest⟩ := hreads
      simp [ofText?, read, hdrop, hcloses, hread, atEnd, hrest.dropSpace_nil]

theorem ofText?_array (h : IsArray gs text) (hgs : gs.map Given.member <+: Member.all) :
    ofText? text = .ok (gs.foldl Draft.put {}).settings := by
  obtain ⟨ts, hts, htext⟩ := h
  cases hts
  case empty =>
    obtain ⟨inner, hdrop, hinner⟩ := htext.dropSpace_cons (by decide)
    obtain ⟨rest, hcloses, hrest⟩ := hinner.closesAtOnce (by decide)
    simp [ofText?, read, hdrop, hcloses, atEnd, hrest.dropSpace_nil]
  case items ts hlisted =>
    obtain ⟨inner, hdrop, hinner⟩ := htext.dropSpace_cons (by decide)
    have hcloses : closesAtOnce ']' inner = .ok none := by
      obtain ⟨c, t, us, rfl, hspace, hne⟩ := Draft.exists_token_of_listed hlisted
      exact hinner.closesAtOnce_of_ne hspace hne
    obtain ⟨rest, hread, hrest⟩ := Draft.readInOrder_listed hlisted (append_nil ts ▸ hinner) {} hgs
    simp [ofText?, read, hdrop, hcloses, hread, atEnd, hrest.dropSpace_nil]

end

-- What is read of known members that are all different.
structure Gathers (gs : List Given) (s : Settings) : Prop where
  gathered : Gathered gs s
  -- Neither the order nor the company of the members matters,
  object   : ∀ hs es text, hs ~ gs → Mixed hs es → IsObject es text → ofText? text = .ok s
  -- nor whether the first ones are given in their order instead of by their names.
  array    : gs.map Given.member <+: Member.all → ∀ text, IsArray gs text → ofText? text = .ok s
  -- But none of them may be given again, not even with the same value.
  repeated :
    ∀ again, again ≠ [] → (∀ g ∈ again, Given.member g ∈ gs.map Given.member) →
      ∀ hs es text, hs ~ again ++ gs → Mixed hs es → IsObject es text → ofText? text = .error .mistyped

theorem gathers {gs : List Given} (h : (gs.map Given.member).Nodup) : ∃ s, Gathers gs s := by
  refine ⟨_, gathered_foldl h, fun hs es text hperm hes htext => ?_,
    fun hgs text htext => ofText?_array htext hgs, fun again hne hagain hs es text hperm hes htext => ?_⟩
  case refine_1 =>
    have hnodup : (hs.map Given.member).Nodup := (hperm.map _).nodup_iff.mpr h
    rw [ofText?_object hes htext, Draft.putAll?_of_nodup hnodup fun g _ => by cases g <;> rfl]
    exact congrArg Except.ok <| ((gathered_foldl hnodup).perm hperm.symm).unique <| gathered_foldl h
  case refine_2 =>
    have hrepeated : ¬(hs.map Given.member).Nodup := by
      obtain ⟨g, again, rfl⟩ := exists_cons_of_ne_nil hne
      rw [(hperm.map _).nodup_iff, cons_append, map_cons, nodup_cons, map_append]
      exact fun hnodup => hnodup.1 <| mem_append_right _ <| hagain g mem_cons_self
    rw [ofText?_object hes htext, Draft.putAll?_of_not_nodup hrepeated]

-- Two members in an order of their own.
theorem gathers_twoMembers :
    ([Given.importStyle .esModule, .cacheSize 7].map Given.member).Nodup ∧
      ∃ s, Gathers [.importStyle .esModule, .cacheSize 7] s :=
  ⟨by decide, gathers (by decide)⟩

example :
    ofText? "\x7b\"x\": [\x7b\"y]\": \"\\ud800\"\x7d, -1E999], \"cacheSize\": 7, \"dedupe\\u0043aptures\": true\x7d" =
      .ok { cacheSize := 7, dedupeCaptures := true } := by
  decide +kernel

end RenderMemo.Settings
