import RenderMemo.Proofs.Calls
import RenderMemo.Proofs.Occurrences
import RenderMemo.Proofs.Prelude
import RenderMemo.Proofs.RoundTrip

open List

namespace RenderMemo

-- What a program makes of a name that one of its items declares: no item in front of that one mentions
-- the name, and the items behind it refer to the name a number of times, and declare it nowhere again.
structure Node.Provides (d : Node) (x : String) (k : Nat) (front rest : List Node) : Prop where
  introduced : d.introduced? = some x
  once       : d.mentions.count x = 1
  front      : ∀ n ∈ front, x ∉ n.mentions
  references : (rest.flatMap mentions).count x = k
  undeclared : ∀ n ∈ rest, x ∉ n.nonReferences

namespace Program

def Provides (p : Program) (x : String) (k : Nat) : Prop :=
  ∃ front d rest, p.body = front ++ d :: rest ∧ d.Provides x k front rest

variable {p : Program} {c : Config} {x : String} {y : Emitted} {front rest : List Emitted}

theorem introduced?_nodeOf (hy : y ∈ (p.expansion c.dedupeCaptures).2.items) (hx : x ∈ y.introduces) :
    (p.nodeOf c y).introduced? = some x := by
  rw [← (declares_of_mem_expansion hy).introduced, mem_filter] at hx
  exact Option.mem_toList.mp hx.1

theorem mem_introduces_of_mem_nonReferences (hy : y ∈ (p.expansion c.dedupeCaptures).2.items)
    (hx : x ∈ p.generatedNames c.dedupeCaptures) (hm : x ∈ (p.nodeOf c y).nonReferences) :
    x ∈ y.introduces := by
  rw [← (declares_of_mem_expansion hy).nonReferences]
  exact mem_filter.mpr ⟨hm, by simpa using hx⟩

theorem introduced_once (hitems : (p.expansion c.dedupeCaptures).2.items = front ++ y :: rest)
    (hx : x ∈ y.introduces) :
    x ∉ front.flatMap Emitted.introduces ∧ x ∉ rest.flatMap Emitted.introduces ∧ y.introduces.count x = 1 := by
  have hnodup : ((p.expansion c.dedupeCaptures).2.items.flatMap Emitted.introduces).Nodup := nodup_introduces
  rw [hitems, flatMap_append, flatMap_cons, nodup_append, nodup_append] at hnodup
  have ⟨_, ⟨hy, _, hrest⟩, hfront⟩ := hnodup
  refine ⟨fun hm => ?_, fun hm => hrest x hx x hm rfl, count_eq_one_of_mem hy hx⟩
  exact hfront x hm x (mem_append_left _ hx) rfl

-- Every name of a binder or a closure is provided by the item that introduces it.
theorem provides_of_mem_introduces (hy : y ∈ (p.expansion c.dedupeCaptures).2.items) (hx : x ∈ y.introduces) :
    (p.memoize c).program.Provides x
      (((p.bindings c.dedupeCaptures).flatMap fun b => b.uses.flatMap Use.names).count x) := by
  have ⟨front, rest, hitems⟩ := append_of_mem hy
  have ⟨hfront, hrest, honce⟩ := introduced_once hitems hx
  have hnames : x ∈ (p.bindings c.dedupeCaptures).flatMap Binding.names :=
    (p.introduces_perm _).mem_iff.mp <| mem_flatMap_of_mem hy hx
  have hgenerated := p.names_subset c.dedupeCaptures hnames
  have ⟨hmemoize, hnodup⟩ := nodup_cons.mp (p.nodup_names c.dedupeCaptures)
  have hne : (p.expansion c.dedupeCaptures).1 ≠ x := fun heq => hmemoize (heq ▸ hnames)
  have hfront' (z : Emitted) (hz : z ∈ front) : x ∉ (p.nodeOf c z).mentions :=
    not_mem_mentions_of_front hitems hgenerated hne hfront hz
  have hitem : (p.nodeOf c y).mentions.count x = 1 := by
    rw [count_mentions_item hitems hgenerated hfront, count_append, honce, y.count_requires hne]
  refine ⟨p.imports c ++ front.map (p.nodeOf c), p.nodeOf c y, rest.map (p.nodeOf c), ?_, ?_⟩
  · rw [append_assoc, ← map_cons, ← map_append, ← hitems]
    exact memoize_body_eq
  constructor
  case introduced => exact introduced?_nodeOf hy hx
  case once => exact hitem
  case front =>
    intro n hn
    cases mem_append.mp hn
    case inl hn =>
      rw [← count_eq_zero, count_mentions_import hn hgenerated, count_singleton, if_neg (by simpa using hne)]
    case inr hn =>
      have ⟨z, hz, heq⟩ := mem_map.mp hn
      exact heq ▸ hfront' z hz
  case references =>
    have hall := count_mentions_items hgenerated
    have hnone : (front.flatMap fun z => (p.nodeOf c z).mentions).count x = 0 := by
      refine count_eq_zero_of_not_mem fun hm => ?_
      have ⟨z, hz, hm⟩ := mem_flatMap.mp hm
      exact hfront' z hz hm
    rw [hitems, flatMap_append, flatMap_cons, count_append, count_append, hnone, hitem,
      count_eq_one_of_mem hnodup hnames, count_replicate, beq_false_of_ne hne,
      if_neg Bool.false_ne_true] at hall
    rw [flatMap_map]
    omega
  case undeclared =>
    intro n hn hm
    have ⟨z, hz, heq⟩ := mem_map.mp hn
    subst heq
    have hz' : z ∈ (p.expansion c.dedupeCaptures).2.items :=
      hitems ▸ mem_append_right _ (mem_cons_of_mem _ hz)
    exact hrest <| mem_flatMap_of_mem hz <| mem_introduces_of_mem_nonReferences hz' hgenerated hm

theorem provides_of_mem_names (hx : x ∈ (p.bindings c.dedupeCaptures).flatMap Binding.names) :
    (p.memoize c).program.Provides x
      (((p.bindings c.dedupeCaptures).flatMap fun b => b.uses.flatMap Use.names).count x) := by
  have ⟨y, hy, hx⟩ := mem_flatMap.mp <| (p.introduces_perm _).mem_iff.mpr hx
  exact provides_of_mem_introduces hy hx

-- A name of a binding is referred to in the uses of that binding.
theorem provides_of_mem_binding {b : Binding} (hb : b ∈ p.bindings c.dedupeCaptures) (hx : x ∈ b.names) :
    (p.memoize c).program.Provides x ((b.uses.flatMap Use.names).count x) := by
  have hnodup := (nodup_cons.mp <| p.nodup_names c.dedupeCaptures).2
  rw [← count_flatMap_of_nodup Binding.names_uses_subset hnodup hb hx]
  exact provides_of_mem_names <| mem_flatMap_of_mem hb hx

theorem nodup_binding {b : Binding} (hb : b ∈ p.bindings c.dedupeCaptures) : b.names.Nodup :=
  (nodup_flatMap.mp (nodup_cons.mp <| p.nodup_names c.dedupeCaptures).2).1 b hb

-- Two items that introduce the same name are the same item.
theorem eq_of_mem_introduces {z : Emitted} (hy : y ∈ (p.expansion c.dedupeCaptures).2.items)
    (hz : z ∈ (p.expansion c.dedupeCaptures).2.items) (hxy : x ∈ y.introduces) (hxz : x ∈ z.introduces) :
    z = y := by
  have ⟨front, rest, hitems⟩ := append_of_mem hy
  have ⟨hfront, hrest, _⟩ := introduced_once hitems hxy
  rw [hitems, mem_append, mem_cons] at hz
  rcases hz with hz | hz | hz
  · exact absurd (mem_flatMap_of_mem hz hxz) hfront
  · exact hz
  · exact absurd (mem_flatMap_of_mem hz hxz) hrest

-- The tree that an item was made of is an item of the program, or the declaration of a closure of one. It
-- mentions no generated name, unless the item introduces it.
theorem exists_root {us : List Use} (h : y.Makes p.body us)
    (hy : y ∈ (p.expansion c.dedupeCaptures).2.items) (hbinding : y.binding? = none) :
    ∃ n, RewritesBy us n (p.nodeOf c y) ∧
      (∀ x ∈ p.generatedNames c.dedupeCaptures, x ∉ y.introduces → x ∉ n.mentions) ∧
      ∃ root ∈ p.body, ∀ bs (u : Use) m, u.Stands bs n m → u.Stands bs root m := by
  cases h
  case binder => nomatch hbinding
  case closure g d hd =>
    have ⟨root, hroot, harises⟩ := arisesFrom_of_mem_expansion hy
    cases harises with
    | closure lifted _ _ =>
      refine ⟨_, hd, fun x hx hne => ?_, root, hroot, fun bs u m hstands => ?_⟩
      · have havoids := avoids_of_mem_expansion hx hy
        rw [← count_eq_zero, havoids.count_declaration, count_eq_zero]
        exact hne
      · exact hstands.of_declaration fun _ hk => Node.subtrees_trans hk root lifted.mem
  case own item n hitem hn =>
    exact ⟨item, hn, fun x hx _ => not_mem_mentions hx hitem, item, hitem, fun _ _ _ hstands => hstands⟩

theorem bindings_subset_of_ready {us : List Use}
    (hready : ∀ u ∈ us, u.Ready (p.expansion c.dedupeCaptures).2.items) :
    us.map Use.binding ⊆ p.bindings c.dedupeCaptures :=
  forall_mem_map.mpr fun u hu => (hready u hu).binding_mem

-- Every use of a binder is made somewhere in the result.
theorem exists_stands {b : Binding} {u : Use} (hb : b ∈ p.bindings c.dedupeCaptures) (hu : u ∈ b.uses) :
    ∃ n ∈ (p.memoize c).program.body, ∃ m ∈ n.subtrees, ∃ root ∈ p.body,
      u.Stands (p.bindings c.dedupeCaptures) root m := by
  have hdue : u ∈ (p.expansion c.dedupeCaptures).2.items.flatMap Emitted.opens := by
    rw [Emitted.flatMap_opens]
    exact mem_flatMap_of_mem hb hu
  obtain ⟨y, hy, us, hmakes, hu, hready⟩ := (p.scheduled c.dedupeCaptures).exists_made hdue
  have hbinding : y.binding? = none := by
    cases hmakes
    case binder  => cases hu
    case closure => rfl
    case own     => rfl
  obtain ⟨n, hn, _, root, hroot, hstands⟩ := exists_root hmakes hy hbinding
  obtain ⟨m, hm, hu⟩ := hn.exists_stands (bindings_subset_of_ready hready) hu
  refine ⟨p.nodeOf c y, ?_, m, hm, root, hroot, hstands _ u m hu⟩
  rw [memoize_body_eq]
  exact mem_append_right _ <| mem_map_of_mem hy

theorem not_mem_names_of_memoize (p : Program) (c : Config) :
    (p.expansion c.dedupeCaptures).1 ∉ (p.bindings c.dedupeCaptures).flatMap Binding.names :=
  (nodup_cons.mp <| p.nodup_names c.dedupeCaptures).1

theorem not_mem_introduces_of_memoize (hy : y ∈ (p.expansion c.dedupeCaptures).2.items) :
    (p.expansion c.dedupeCaptures).1 ∉ y.introduces := fun hm =>
  p.not_mem_names_of_memoize c <| (p.introduces_perm _).mem_iff.mp <| mem_flatMap_of_mem hy hm

-- The memoize function is called in the declarations of the binders.
theorem contains_memoize_nodeOf (hy : y ∈ (p.expansion c.dedupeCaptures).2.items) :
    (p.nodeOf c y).mentions.contains (p.expansion c.dedupeCaptures).1 = y.binding?.isSome := by
  have ⟨front, rest, hitems⟩ := append_of_mem hy
  have hfront : (p.expansion c.dedupeCaptures).1 ∉ front.flatMap Emitted.introduces := by
    intro hm
    have ⟨z, hz, hm⟩ := mem_flatMap.mp hm
    exact not_mem_introduces_of_memoize (hitems ▸ mem_append_left _ hz) hm
  have hcount := count_mentions_item hitems memoizeName_mem_generatedNames hfront
  rw [count_append, count_eq_zero_of_not_mem (not_mem_introduces_of_memoize hy), Nat.zero_add] at hcount
  rw [Bool.eq_iff_iff, contains_iff_mem, ← count_pos_iff, hcount]
  cases y <;> simp [Emitted.requires, Emitted.binding?]

theorem filter_contains_memoize :
    ((p.expansion c.dedupeCaptures).2.items.map (p.nodeOf c)).filter
        (·.mentions.contains (p.expansion c.dedupeCaptures).1) =
      (p.bindings c.dedupeCaptures).map fun b =>
        binderDeclaration b.binder (p.expansion c.dedupeCaptures).1 c.cacheSize := by
  rw [bindings, Expansion.bindings, ← filterMap_eq_filter, filterMap_map, map_filterMap]
  refine filterMap_congr fun y hy => ?_
  rw [Function.comp_apply, Option.guard, contains_memoize_nodeOf hy]
  cases y <;> rfl

-- The import provides the name of the memoize function to the declarations of the binders.
theorem provides_memoize {d : Node} (hd : d ∈ p.imports c) :
    d.Provides (p.expansion c.dedupeCaptures).1 (p.bindings c.dedupeCaptures).length []
      ((p.expansion c.dedupeCaptures).2.items.map (p.nodeOf c)) where
  introduced := by
    rw [eq_of_mem_imports hd]
    exact introduced?_memoizeImport
  once := by
    rw [count_mentions_import hd memoizeName_mem_generatedNames, count_singleton_self]
  front := by simp
  references := by
    have hnone := p.not_mem_names_of_memoize c
    have huses : (p.expansion c.dedupeCaptures).1 ∉
        (p.bindings c.dedupeCaptures).flatMap fun b => b.uses.flatMap Use.names := by
      intro hm
      have ⟨b, hb, hm⟩ := mem_flatMap.mp hm
      exact hnone <| mem_flatMap_of_mem hb (b.names_uses_subset hm)
    rw [flatMap_map, count_mentions_items memoizeName_mem_generatedNames, count_replicate_self,
      count_eq_zero_of_not_mem hnone, count_eq_zero_of_not_mem huses, Nat.zero_add, Nat.add_zero]
  undeclared := by
    intro n hn hm
    have ⟨y, hy, heq⟩ := mem_map.mp hn
    subst heq
    exact not_mem_introduces_of_memoize hy <|
      mem_introduces_of_mem_nonReferences hy memoizeName_mem_generatedNames hm

-- A generated name that occurs in a result is in use.
theorem used_of_mem_mentions (hy : y ∈ (p.expansion c.dedupeCaptures).2.items)
    (hx : x ∈ p.generatedNames c.dedupeCaptures) (hm : x ∈ (p.nodeOf c y).mentions) :
    0 < (p.bindings c.dedupeCaptures).length ∧
      x ∈ (p.expansion c.dedupeCaptures).1 :: (p.bindings c.dedupeCaptures).flatMap Binding.names := by
  have hmem : x ∈ (p.expansion c.dedupeCaptures).2.items.flatMap fun y => (p.nodeOf c y).mentions :=
    mem_flatMap_of_mem hy hm
  rw [← count_pos_iff, count_mentions_items hx, ← count_append, ← count_append, count_pos_iff, mem_append,
    mem_append, mem_replicate] at hmem
  have hnames (hx : x ∈ (p.bindings c.dedupeCaptures).flatMap Binding.names) :
      0 < (p.bindings c.dedupeCaptures).length ∧
        x ∈ (p.expansion c.dedupeCaptures).1 :: (p.bindings c.dedupeCaptures).flatMap Binding.names := by
    have ⟨b, hb, _⟩ := mem_flatMap.mp hx
    exact ⟨length_pos_of_mem hb, mem_cons_of_mem _ hx⟩
  rcases hmem with (hx | ⟨hlength, hx⟩) | hx
  · exact hnames hx
  · exact ⟨Nat.pos_of_ne_zero hlength, hx ▸ mem_cons_self⟩
  · have ⟨b, hb, hx⟩ := mem_flatMap.mp hx
    exact hnames <| mem_flatMap_of_mem hb (b.names_uses_subset hx)

-- That every generated name is declared before it is referred to, and that each is referred to as often as
-- the uses of its binding say.
structure Linked (p : Program) (c : Config) : Prop where
  -- The binder of a function is called for each of its bind calls and closures, of which there is one.
  binder :
    ∀ b ∈ p.bindings c.dedupeCaptures, 0 < b.bindSites + b.hoisted.length ∧
      (p.memoize c).program.Provides b.binder (b.bindSites + b.hoisted.length)
  -- The only reference to a closure is the first argument of a call of the binder.
  closure :
    ∀ b ∈ p.bindings c.dedupeCaptures, ∀ h ∈ b.hoisted, (p.memoize c).program.Provides h.name 1 ∧
      ∃ n ∈ (p.memoize c).program.body, h.call b.binder ∈ n.subtrees
  -- The memoize function comes first, and it is referred to once in the declaration of every binder.
  memoize :
    (p.memoize c).report.importInserted → ∃ d rest, (p.memoize c).program.body = d :: rest ∧
      d.Provides (p.expansion c.dedupeCaptures).1 (p.bindings c.dedupeCaptures).length [] rest ∧
      rest.filter (·.mentions.contains (p.expansion c.dedupeCaptures).1) =
        (p.bindings c.dedupeCaptures).map fun b =>
          binderDeclaration b.binder (p.expansion c.dedupeCaptures).1 c.cacheSize
  -- No other generated name occurs, and none at all where nothing was rewritten.
  only :
    ∀ n ∈ (p.memoize c).program.body, ∀ x ∈ n.mentions, x ∈ p.generatedNames c.dedupeCaptures →
      0 < (p.memoize c).report.rewrittenFunctions ∧
      x ∈ (p.expansion c.dedupeCaptures).1 :: (p.bindings c.dedupeCaptures).flatMap Binding.names

-- References to generated names are intact.
theorem linked (p : Program) (c : Config) : p.Linked c where
  binder b hb := by
    have hprovides := provides_of_mem_binding hb mem_cons_self
    rw [Binding.count_binder_uses (nodup_binding hb)] at hprovides
    exact ⟨used_of_mem_bindings hb, hprovides⟩
  closure b hb h hh := by
    have hprovides := provides_of_mem_binding hb <| mem_cons_of_mem _ (mem_map_of_mem hh)
    rw [Binding.count_name_uses (nodup_binding hb) hh] at hprovides
    have ⟨n, hn, m, hm, _, _, hstands⟩ := exists_stands hb <| mem_append_right _ (mem_map_of_mem hh)
    cases hstands with
    | closure => exact ⟨hprovides, n, hn, hm⟩
  memoize hinserted := by
    have himports : p.imports c = [memoizeImport p.kind c (p.expansion c.dedupeCaptures).1] :=
      if_pos hinserted
    refine ⟨_, _, ?_, provides_memoize (himports ▸ mem_cons_self), filter_contains_memoize⟩
    rw [memoize_body_eq, himports]
    rfl
  only n hn x hm hx := by
    rw [memoize_body_eq, mem_append] at hn
    cases hn
    case inl hn =>
      have hrewritten : 0 < (p.memoize c).report.rewrittenFunctions := by
        rw [imports_eq] at hn
        split at hn
        case isTrue h  => exact h
        case isFalse   => nomatch hn
      rw [← count_pos_iff, count_mentions_import hn hx, count_pos_iff, mem_singleton] at hm
      exact ⟨hrewritten, hm ▸ mem_cons_self⟩
    case inr hn =>
      have ⟨y, hy, heq⟩ := mem_map.mp hn
      subst heq
      exact used_of_mem_mentions hy hx hm

end Program

end RenderMemo
