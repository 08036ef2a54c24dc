import RenderMemo.Proofs.Schedule

open List

namespace RenderMemo

namespace Binding

-- How often the uses of a binding name the binder and the closures.
theorem count_names_uses (b : Binding) (x : String) :
    (b.uses.flatMap Use.names).count x =
      (replicate (b.bindSites + b.hoisted.length) b.binder).count x + (b.hoisted.map Hoisted.name).count x := by
  have hsites (k : Nat) :
      ((replicate k (Use.bindCall b)).flatMap Use.names).count x = (replicate k b.binder).count x := by
    induction k
    case zero      => rfl
    case succ k hi => simp [replicate_succ, Use.names, count_cons, hi]
  have hclosures (hs : List Hoisted) :
      ((hs.map (Use.closure b)).flatMap Use.names).count x =
        (replicate hs.length b.binder).count x + (hs.map Hoisted.name).count x := by
    induction hs
    case nil          => rfl
    case cons h hs hi =>
      simp only [map_cons, flatMap_cons, count_append, hi, Use.names, length_cons, replicate_succ, count_cons,
        count_nil]
      omega
  rw [uses, flatMap_append, count_append, hsites, hclosures, replicate_add, count_append]
  omega

theorem names_uses_subset (b : Binding) : b.uses.flatMap Use.names ⊆ b.names := by
  intro x hx
  have ⟨u, hu, hx⟩ := mem_flatMap.mp hx
  simp only [uses, mem_append, mem_replicate, mem_map] at hu
  rcases hu with ⟨_, rfl⟩ | ⟨h, hh, rfl⟩
  · exact mem_singleton.mp hx ▸ mem_cons_self
  · exact cons_subset_cons _ (cons_subset.mpr ⟨mem_map_of_mem hh, nil_subset _⟩) hx

variable {b : Binding}

theorem count_binder_uses (h : b.names.Nodup) :
    (b.uses.flatMap Use.names).count b.binder = b.bindSites + b.hoisted.length := by
  have hbinder := (nodup_cons.mp h).1
  rw [count_names_uses, count_replicate_self, count_eq_zero_of_not_mem hbinder, Nat.add_zero]

theorem count_name_uses {g : Hoisted} (h : b.names.Nodup) (hg : g ∈ b.hoisted) :
    (b.uses.flatMap Use.names).count g.name = 1 := by
  have ⟨hbinder, hnames⟩ := nodup_cons.mp h
  have hg := mem_map_of_mem (f := Hoisted.name) hg
  have hne : b.binder ≠ g.name := fun heq => hbinder (heq ▸ hg)
  rw [count_names_uses, count_replicate, beq_false_of_ne hne, count_eq_one_of_mem hnames hg]
  rfl

end Binding

-- The memoize function, in the items that call it.
def Emitted.requires (memoize : String) : Emitted → List String
  | binder _ => [memoize]
  | closure .. | own _ => []

theorem Emitted.count_requires {memoize x : String} (y : Emitted) (hne : memoize ≠ x) :
    (y.requires memoize).count x = 0 := by
  cases y
  case binder  => exact count_singleton.trans <| if_neg <| by simpa using hne
  case closure => rfl
  case own     => rfl

section

variable {p : Program} {dedupe : Bool} {x : String} {done xs : List Emitted}

theorem Program.not_mem_mentions {item : Node} (hx : x ∈ p.generatedNames dedupe) (hitem : item ∈ p.body) :
    x ∉ item.mentions := by
  intro hm
  have ⟨i, hi, heq⟩ := mem_map.mp hm
  exact not_mem_generatedNames (mem_flatMap.mpr ⟨item, hitem, hi⟩) (heq ▸ hx)

theorem Program.avoids_of_mem_expansion {h : Hoisted} {d : Node} (hx : x ∈ p.generatedNames dedupe)
    (hh : .closure h d ∈ (p.expansion dedupe).2.items) : h.Avoids x := by
  have ⟨item, hitem, harises⟩ := arisesFrom_of_mem_expansion hh
  cases harises with
  | closure lifted _ _ => exact lifted.avoids (not_mem_mentions hx hitem)

-- An item mentions a generated name where it introduces it, and in the uses that are made in it.
theorem Emitted.Makes.count_mentions {y : Emitted} {us : List Use} (memoize : String) (cacheSize : UInt64)
    (h : y.Makes p.body us) (hx : x ∈ p.generatedNames dedupe) (hy : y ∈ (p.expansion dedupe).2.items)
    (hready : ∀ u ∈ us, u.Ready (p.expansion dedupe).2.items) :
    (y.node memoize cacheSize).mentions.count x =
      (y.introduces ++ y.requires memoize ++ us.flatMap Use.names).count x := by
  have hus (b : Binding) (g : Hoisted) (hg : .closure b g ∈ us) : g.Avoids x := by
    have ⟨_, _, hg⟩ := hready _ hg
    exact Program.avoids_of_mem_expansion hx hg
  cases h
  case binder b =>
    have hhead := Program.head?_eq_of_mem_generatedNames hx
    have hplain (w : String) (hw : w.toList.head? ≠ some '_') : w ≠ x := fun heq => hw (heq ▸ hhead)
    have hfunc    := hplain "func" (by decide)
    have hcontext := hplain "context" (by decide)
    have hargs    := hplain "args" (by decide)
    have hmentions : (binderDeclaration b.binder memoize cacheSize).mentions =
        [b.binder, memoize, "func", "context", "args", "func", "context", "args"] :=
      rfl
    simp [node, hmentions, introduces, requires, count_cons, hfunc, hcontext, hargs]
  case closure g d hd =>
    have hg := Program.avoids_of_mem_expansion hx hy
    rw [node, hd.count_mentions_of_avoids hus, hg.count_declaration, count_append, requires, append_nil]
    rfl
  case own item n hitem hn =>
    have hitem := Program.not_mem_mentions hx hitem
    rw [node, hn.count_mentions_of_avoids hus, count_eq_zero_of_not_mem hitem, Nat.zero_add]
    rfl

-- All mentions of a generated name in a run: where it is introduced, and in the uses.
theorem Scheduled.count_mentions {due : List Use} (memoize : String) (cacheSize : UInt64)
    (h : Scheduled p.body done due xs) (hx : x ∈ p.generatedNames dedupe)
    (hdone : done ⊆ (p.expansion dedupe).2.items) (hxs : xs ⊆ (p.expansion dedupe).2.items) :
    (xs.flatMap fun y => (y.node memoize cacheSize).mentions).count x =
      (xs.flatMap Emitted.introduces).count x + (xs.flatMap (Emitted.requires memoize)).count x +
        ((due ++ xs.flatMap Emitted.opens).flatMap Use.names).count x := by
  induction h
  case nil => rfl
  case cons done xs due due' us y hmakes hready hdue _ hi =>
    have ⟨hy, hxs⟩ := cons_subset.mp hxs
    have hfirst := hmakes.count_mentions memoize cacheSize hx hy fun u hu => (hready u hu).mono hdone
    have hrest := hi (cons_subset.mpr ⟨hy, hdone⟩) hxs
    have hdue := (hdue.flatMap_right Use.names).count_eq x
    simp only [flatMap_cons, flatMap_append, count_append] at hfirst hrest hdue ⊢
    omega

end

namespace Program

-- An item as it stands in the result of a run.
def nodeOf (p : Program) (c : Config) (y : Emitted) : Node :=
  y.node (p.expansion c.dedupeCaptures).1 c.cacheSize

variable {p : Program} {c : Config} {x : String} {y : Emitted} {front rest : List Emitted}

section

variable (p : Program) (dedupe : Bool)

theorem introduces_perm :
    (p.expansion dedupe).2.items.flatMap Emitted.introduces ~ (p.bindings dedupe).flatMap Binding.names :=
  expandItems_introduces p.body _

theorem nodup_names : ((p.expansion dedupe).1 :: (p.bindings dedupe).flatMap Binding.names).Nodup := by
  have ⟨hands, _, hp, _⟩ := p.generatedNames_account dedupe
  exact (hp.nodup_iff.mp hands.nodup).of_append_left

theorem names_subset : (p.bindings dedupe).flatMap Binding.names ⊆ p.generatedNames dedupe := by
  intro x hx
  have ⟨b, hb, hx⟩ := mem_flatMap.mp hx
  exact names_subset_generatedNames hb hx

end

theorem flatMap_requires (xs : List Emitted) (memoize : String) :
    xs.flatMap (Emitted.requires memoize) = replicate (Emitted.bindings xs).length memoize := by
  induction xs
  case nil => rfl
  case cons x xs hi =>
    cases x <;> exact congrArg _ hi

-- How often the items of a result mention a generated name.
theorem count_mentions_items (hx : x ∈ p.generatedNames c.dedupeCaptures) :
    ((p.expansion c.dedupeCaptures).2.items.flatMap fun y => (p.nodeOf c y).mentions).count x =
      ((p.bindings c.dedupeCaptures).flatMap Binding.names).count x +
        (replicate (p.bindings c.dedupeCaptures).length (p.expansion c.dedupeCaptures).1).count x +
        ((p.bindings c.dedupeCaptures).flatMap fun b => b.uses.flatMap Use.names).count x := by
  have hcount := (p.scheduled c.dedupeCaptures).count_mentions (p.expansion c.dedupeCaptures).1 c.cacheSize hx
    (nil_subset _) (Subset.refl _)
  rw [(p.introduces_perm _).count_eq, flatMap_requires, nil_append, Emitted.flatMap_opens,
    flatMap_assoc] at hcount
  exact hcount

-- An item mentions no generated name that is introduced behind it.
theorem count_mentions_item (hitems : (p.expansion c.dedupeCaptures).2.items = front ++ y :: rest)
    (hx : x ∈ p.generatedNames c.dedupeCaptures) (hfront : x ∉ front.flatMap Emitted.introduces) :
    (p.nodeOf c y).mentions.count x =
      (y.introduces ++ y.requires (p.expansion c.dedupeCaptures).1).count x := by
  have ⟨us, hmakes, hready⟩ := (hitems ▸ p.scheduled c.dedupeCaptures).exists_makes
  rw [append_nil] at hready
  have hdone : front.reverse ⊆ (p.expansion c.dedupeCaptures).2.items := by
    rw [hitems]
    exact reverse_subset.mpr <| subset_append_left ..
  have hus : x ∉ us.flatMap Use.names := by
    intro hm
    have ⟨u, hu, hm⟩ := mem_flatMap.mp hm
    have ⟨z, hz, hm⟩ := mem_flatMap.mp <| (hready u hu).names_subset hm
    exact hfront <| mem_flatMap_of_mem (mem_reverse.mp hz) hm
  have hy : y ∈ (p.expansion c.dedupeCaptures).2.items := hitems ▸ mem_append_right _ mem_cons_self
  have hcount := hmakes.count_mentions (p.expansion c.dedupeCaptures).1 c.cacheSize hx hy fun u hu =>
    (hready u hu).mono hdone
  rw [count_append, count_eq_zero_of_not_mem hus, Nat.add_zero] at hcount
  exact hcount

theorem not_mem_mentions_of_front (hitems : (p.expansion c.dedupeCaptures).2.items = front ++ rest)
    (hx : x ∈ p.generatedNames c.dedupeCaptures) (hne : (p.expansion c.dedupeCaptures).1 ≠ x)
    (hfront : x ∉ front.flatMap Emitted.introduces) (hy : y ∈ front) : x ∉ (p.nodeOf c y).mentions := by
  have ⟨before, behind, heq⟩ := append_of_mem hy
  subst heq
  rw [append_assoc, cons_append] at hitems
  rw [flatMap_append, flatMap_cons, mem_append, mem_append, not_or, not_or] at hfront
  have ⟨hbefore, hy, _⟩ := hfront
  have hcount := count_mentions_item hitems hx hbefore
  rw [count_append, count_eq_zero_of_not_mem hy, y.count_requires hne] at hcount
  exact count_eq_zero.mp hcount

theorem mentions_memoizeImport (kind : ProgramKind) (c : Config) (memoize : String) :
    (memoizeImport kind c memoize).mentions = [memoize] ∨
      (memoizeImport kind c memoize).mentions = [memoize, "require"] := by
  unfold memoizeImport
  split
  case h_1 => exact .inl rfl
  case h_2 => exact .inr rfl

theorem eq_of_mem_imports {n : Node} (hn : n ∈ p.imports c) :
    n = memoizeImport p.kind c (p.expansion c.dedupeCaptures).1 := by
  rw [imports] at hn
  split at hn
  case isTrue  => exact mem_singleton.mp hn
  case isFalse => cases hn

-- The import mentions one generated name, and that name once.
theorem count_mentions_import {n : Node} (hn : n ∈ p.imports c) (hx : x ∈ p.generatedNames c.dedupeCaptures) :
    n.mentions.count x = [(p.expansion c.dedupeCaptures).1].count x := by
  have hhead := head?_eq_of_mem_generatedNames hx
  have hrequire : "require" ≠ x := by
    intro heq
    exact absurd (heq ▸ hhead) (by decide)
  rw [eq_of_mem_imports hn]
  cases mentions_memoizeImport p.kind c (p.expansion c.dedupeCaptures).1
  case inl h => rw [h]
  case inr h => simp [h, count_cons, hrequire]

end Program

end RenderMemo
