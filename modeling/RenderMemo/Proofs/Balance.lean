import Mathlib.Algebra.GroupWithZero.Nat
import RenderMemo.Proofs.Layout

open List

namespace RenderMemo

-- The sum of what a measure makes of the members of a list.
def total {α : Type} (f : α → Nat) (xs : List α) : Nat := (xs.map f).sum

section

variable {α β : Type} {f : α → Nat} {g : β → Nat}

@[simp]
theorem total_nil : total f [] = 0 :=
  rfl

@[simp]
theorem total_cons (x : α) (xs : List α) : total f (x :: xs) = f x + total f xs :=
  sum_cons

@[simp]
theorem total_append (xs ys : List α) : total f (xs ++ ys) = total f xs + total f ys := by
  rw [total, map_append, sum_append, total, total]

-- A report adds up without a list of the numbers.
theorem total_eq_foldr (f : α → Nat) (xs : List α) : total f xs = xs.foldr (f · + ·) 0 :=
  foldr_map

theorem total_eq_of_forall₂ {xs : List α} {ys : List β}
    (h : Forall₂ (fun x y => f x = g y) xs ys) : total f xs = total g ys := by
  rw [← forall₂_map_right_iff, ← forall₂_map_left_iff, forall₂_eq_eq_eq] at h
  exact congrArg sum h

end

-- What a run keeps account of.
inductive Tally where
  | closure
  | declaration
  | bindCall
  | markup

namespace Tally

-- Whether a node is to be counted.
def counts : Tally → Node → Bool
  | closure, n     => n.label.isClosure
  | declaration, n => n.isKind .functionDeclaration
  | bindCall, n    => n.isBindCall
  | markup, n      => n.label.isMarkup

-- How many are gone with a bind call, and with a closure apart from its parts.

def perBindCall : Tally → Nat
  | bindCall => 1
  | _ => 0

def perClosure : Tally → Nat
  | closure => 1
  | _ => 0

-- How many come with the declaration of a binder, and with that of a closure apart from its parts.

def perBinder : Tally → Nat
  | closure | bindCall => 1
  | declaration | markup => 0

def perDeclaration : Tally → Nat
  | declaration => 1
  | _ => 0

end Tally

-- The number of nodes of a tree that are to be counted.
def Node.tally (t : Tally) (n : Node) : Nat := n.count t.counts

def tallyOfEdges (t : Tally) (es : List Edge) : Nat := countEdges t.counts es

def Program.tally (t : Tally) (p : Program) : Nat := total (Node.tally t) p.body

section

variable {t : Tally} {us : List Use} {n n' : Node} {l : Label} {es es' : List Edge}

theorem Node.tally_mk (t : Tally) (l : Label) (es : List Edge) :
    (mk l es).tally t = (if t.counts (mk l es) then 1 else 0) + tallyOfEdges t es := by
  rw [tally, count, tallyOfEdges]

@[simp]
theorem tallyOfEdges_nil : tallyOfEdges t [] = 0 :=
  rfl

@[simp]
theorem tallyOfEdges_cons (e : Edge) (es : List Edge) :
    tallyOfEdges t (e :: es) = e.2.tally t + tallyOfEdges t es :=
  rfl

-- Calls are counted by what they call, and all other nodes by their form.
theorem Tally.counts_eq_false (t : Tally) {l : Label} {es : List Edge}
    (hl : l.kind? ∉ [some .arrowFunctionExpression, some .functionDeclaration, some .callExpression,
      some .jsxElement, some .jsxFragment]) : t.counts (.mk l es) = false := by
  cases l
  case form k s as =>
    cases t
    case closure     => cases k <;> first | rfl | simp [Label.kind?] at hl
    case declaration => cases k <;> first | rfl | simp [Label.kind?] at hl
    case bindCall    => cases k <;> first | rfl | simp [Label.kind?] at hl
    case markup      => cases k <;> first | rfl | simp [Label.kind?] at hl
  all_goals cases t <;> rfl

theorem Node.tally_of_not_counted (hl : l.kind? ∉ [some .arrowFunctionExpression, some .functionDeclaration,
      some .callExpression, some .jsxElement, some .jsxFragment]) : (mk l es).tally t = tallyOfEdges t es := by
  simp [tally_mk, t.counts_eq_false hl]

-- The nodes that are made around the parts of a site are not counted.

@[simp]
theorem Node.tally_ofIdent (i : Ident) : (ofIdent i).tally t = 0 :=
  tally_of_not_counted <| by simp [Label.kind?]

@[simp]
theorem Node.tally_named (name : String) : (named name).tally t = 0 :=
  tally_ofIdent _

@[simp]
theorem Node.tally_entry (n : Node) : (entry n).tally t = n.tally t :=
  tally_of_not_counted <| by decide

theorem Node.tally_closure (t : Tally) (hc : l.isClosure = true) (es : List Edge) :
    (mk l es).tally t = t.perClosure + tallyOfEdges t es := by
  rw [tally_mk]
  unfold Label.isClosure at hc
  split at hc
  case h_1 => cases t <;> rfl
  case h_2 => cases hc

-- A call of a binder is not counted itself.
theorem Node.tally_boundCall {s : Span} {as : List (String × Json)} {binder : String} :
    (mk (.form .callExpression s as) ((.callee, named binder) :: es)).tally t = tallyOfEdges t es := by
  have hcall : t.counts (mk (.form .callExpression s as) ((.callee, named binder) :: es)) = false := by
    cases t <;> rfl
  simp [tally_mk, hcall]

theorem Hoisted.tally_call (h : Hoisted) (binder : String) : (h.call binder).tally t = 0 := by
  have hcaptured (is : List Ident) :
      tallyOfEdges t (is.map fun i => (.arguments, .entry (.ofIdent i))) = 0 := by
    induction is
    case nil          => rfl
    case cons i is hi => simp [hi]
  have hthis : Node.this.tally t = 0 := Node.tally_of_not_counted <| by decide
  rw [call, Node.callAt, Node.tally_boundCall]
  simp [hthis, hcaptured, Function.comp_def]

-- A bind call is one of those that are counted as such, and what else is counted is in its target and in
-- its arguments.
theorem Node.tally_bindCall {s : Span} {as : List (String × Json)} {rest : List Edge} {target : Node}
    (h : bindParts? es = some (target, rest)) :
    (mk (.form .callExpression s as) es).tally t = t.perBindCall + target.tally t + tallyOfEdges t rest := by
  have hself : (if t.counts (mk (.form .callExpression s as) es) then 1 else 0) = t.perBindCall := by
    cases t
    case bindCall => simp [Tally.counts, isBindCall, h, Tally.perBindCall]
    all_goals rfl
  obtain ⟨_, _, _, heq⟩ := bindParts?_eq_some_iff.mp h
  have hmember {s as ps} : (mk (.form .memberExpression s as)
      [(.object, target), (.property, mk (.name "bind" ps) [])]).tally t = target.tally t := by
    have hname : (mk (.name "bind" ps) []).tally t = 0 := tally_of_not_counted <| by simp [Label.kind?]
    rw [tally_of_not_counted (by simp [Label.kind?])]
    simp [hname]
  rw [tally_mk, hself, heq, tallyOfEdges_cons, hmember, Nat.add_assoc]

-- A node is counted as before when its parts are rewritten.
theorem RewritesEdgesBy.counts_eq (h : RewritesEdgesBy us es es') :
    t.counts (.mk l es') = t.counts (.mk l es) := by
  cases t
  case bindCall =>
    rw [Tally.counts, Tally.counts, Bool.eq_iff_iff, Node.isBindCall_mk, Node.isBindCall_mk,
      Option.isSome_iff_exists, Option.isSome_iff_exists]
    refine and_congr_right fun _ => ⟨fun ⟨⟨_, _⟩, hp⟩ => ?_, fun ⟨⟨_, _⟩, hp⟩ => ?_⟩
    · have ⟨_, _, hp, _⟩ := (h.rewrites (Subset.refl _)).bindParts? hp
      exact ⟨_, hp⟩
    · have ⟨_, _, _, _, _, _, _, hp⟩ := h.bindParts? hp
      exact ⟨_, hp⟩
  all_goals rfl

end

-- What a use takes out of the tree in which it is made.
def Use.removes (t : Tally) : Use → Nat
  | bindCall _  => t.perBindCall
  | closure _ h => h.arrow.tally t

-- What is counted in a tree is still there after a rewriting, or it went with one of the uses.
mutual

theorem RewritesBy.tally (t : Tally) {us : List Use} {n n' : Node} : RewritesBy us n n' →
    n'.tally t + total (Use.removes t) us = n.tally t
  | .keep hes => by
    have := hes.tally t
    simp only [Node.tally_mk, hes.counts_eq]
    omega
  | .closure _ _ => by simp [Hoisted.tally_call, Use.removes]
  | .bind hp htarget hrest => by
    have := htarget.tally t
    have := hrest.tally t
    simp only [Node.tally_boundCall, Node.tally_bindCall hp, tallyOfEdges_cons, Node.tally_entry, total_cons,
      total_append, Use.removes]
    omega

theorem RewritesEdgesBy.tally (t : Tally) {us : List Use} {es es' : List Edge} :
    RewritesEdgesBy us es es' → tallyOfEdges t es' + total (Use.removes t) us = tallyOfEdges t es
  | .nil => rfl
  | .cons hn hes => by
    have := hn.tally t
    have := hes.tally t
    simp only [tallyOfEdges_cons, total_append]
    omega

end

namespace Hoisted

-- What is made of a part of a closure cannot be told from the part by what disregards the nodes that are
-- made around it.
theorem declaredEdge_eq {α : Type} {P : Node → α} (e : Edge)
    (h : ∀ k ∈ [Kind.parameter, .blockStatement, .returnStatement], ∀ f n, P (.form k [] [(f, n)]) = P n) :
    P (declaredEdge e).2 = P e.2 := by
  unfold declaredEdge
  split
  case h_1 => exact h _ (by simp) ..
  case h_2 =>
    unfold bodyBlock
    split
    case isTrue  => rfl
    case isFalse => exact (h _ (by simp) ..).trans (h _ (by simp) ..)
  case h_3 => rfl

theorem not_isClosure_wrapper {k : Kind} (hk : k ∈ [.parameter, .blockStatement, .returnStatement]) :
    (Label.form k .generated []).isClosure = false := by
  simp only [mem_cons, not_mem_nil, or_false] at hk
  rcases hk with rfl | rfl | rfl <;> rfl

-- The declaration of a closure has the parts of the closure, behind the captured variables. What passes over
-- those, and over what is made around a part, finds the same in both.
theorem declaredEdges_eq {α : Type} {φ : List Edge → α} (h : Hoisted)
    (hcaptured : ∀ i es, φ ((.params, .parameter (.ofIdent i)) :: es) = φ es)
    (hpart : ∀ e es es', φ es = φ es' → φ (declaredEdge e :: es) = φ (e :: es')) :
    φ h.declaredEdges = φ h.arrow.edges := by
  have hfront (is : List Ident) (es : List Edge) :
      φ ((is.map fun i => (.params, .parameter (.ofIdent i))) ++ es) = φ es := by
    induction is
    case nil          => rfl
    case cons i is hi => rw [map_cons, cons_append, hcaptured, hi]
  have hparts (es : List Edge) : φ (es.map declaredEdge) = φ es := by
    induction es
    case nil          => rfl
    case cons e es hi => exact hpart e _ _ hi
  rw [declaredEdges, hfront, hparts]

theorem tallyOfEdges_declaredEdges (t : Tally) (h : Hoisted) :
    tallyOfEdges t h.declaredEdges = tallyOfEdges t h.arrow.edges := by
  have hwrapper (k : Kind) (hk : k ∈ [.parameter, .blockStatement, .returnStatement]) (f : Field) (n : Node) :
      (Node.form k [] [(f, n)]).tally t = n.tally t := by
    simp only [mem_cons, not_mem_nil, or_false] at hk
    rcases hk with rfl | rfl | rfl <;> exact Node.tally_of_not_counted (by decide)
  refine h.declaredEdges_eq (fun i es => ?_) fun e es es' hi => ?_
  · rw [tallyOfEdges_cons, Node.parameter, hwrapper _ (by simp), Node.tally_ofIdent, Nat.zero_add]
  · rw [tallyOfEdges_cons, tallyOfEdges_cons, hi, declaredEdge_eq e hwrapper]

-- A closure becomes a declaration, and nothing else in it becomes anything else.
theorem tally_declaration (t : Tally) {h : Hoisted} (hc : h.arrow.label.isClosure = true) :
    h.declaration.tally t + t.perClosure = h.arrow.tally t + t.perDeclaration := by
  have hdeclaration : h.declaration.tally t = t.perDeclaration + tallyOfEdges t h.arrow.edges := by
    rw [declaration_eq, Node.tally_mk, tallyOfEdges_cons, tallyOfEdges_declaredEdges]
    cases t <;> simp [Tally.counts, Tally.perDeclaration, declarationLabel, Node.label, Label.isClosure,
      Label.isMarkup, Node.isKind, Node.kind?, Label.kind?, Node.isBindCall]
  have harrow := Node.tally_closure t hc h.arrow.edges
  rw [Node.mk_label_edges] at harrow
  omega

end Hoisted

namespace Binding

-- What the uses of a binder take out of the tree in which they are made.
def removes (t : Tally) (b : Binding) : Nat := total (Use.removes t) b.uses

theorem total_removes (t : Tally) {us : List Use} {bs : List Binding} (h : us ~ bs.flatMap uses) :
    total (Use.removes t) us = total (removes t) bs := by
  rw [total, (h.map _).sum_nat, map_flatMap, flatMap, sum_flatten, map_map]
  rfl

-- What stands in front of that tree instead, before the closures are expanded.
def adds (t : Tally) (b : Binding) : Nat := t.perBinder + total (fun h => h.declaration.tally t) b.hoisted

end Binding

theorem tally_memoizeImport (t : Tally) (kind : ProgramKind) (c : Config) (memoize : String) :
    (memoizeImport kind c memoize).tally t = 0 := by
  unfold memoizeImport
  split <;> cases t <;> rfl

namespace Emitted

def tally (t : Tally) : Emitted → Nat
  | binder _    => t.perBinder
  | closure _ d => d.tally t
  | own item    => item.tally t

theorem tally_node (t : Tally) (memoize : String) (cacheSize : UInt64) (x : Emitted) :
    (x.node memoize cacheSize).tally t = x.tally t := by
  cases x
  case binder  => cases t <;> rfl
  case closure => rfl
  case own     => rfl

end Emitted

section

variable {dedupe : Bool} (t : Tally)

-- What an expansion has besides what was in the item is what its binders add.
mutual

theorem Expands.tally {emit : Node → Emitted} {n : Node} {xs : List Emitted}
    (hbinding : ∀ n, (emit n).binding? = none) (hemit : ∀ n, (emit n).tally t = n.tally t) :
    Expands dedupe emit n xs →
      total (Emitted.tally t) xs + total (Binding.removes t) (Emitted.bindings xs) =
        n.tally t + total (Binding.adds t) (Emitted.bindings xs)
  | .item _ hbindings hrewrites hp => by
    have hfront := hbindings.tally
    have hitem := hrewrites.tally t
    have huses := Binding.total_removes t hp
    simp only [Emitted.bindings_append_last hbinding, total_append, total_cons, total_nil, hemit]
    omega

theorem ExpandsBindings.tally {bs : List Binding} {xs : List Emitted} : ExpandsBindings dedupe bs xs →
    total (Emitted.tally t) xs + total (Binding.removes t) (Emitted.bindings xs) =
      total (Binding.removes t) bs + total (Binding.adds t) (Emitted.bindings xs)
  | .nil => rfl
  | .cons hclosures hbindings => by
    have hfirst := hclosures.tally
    have hrest := hbindings.tally
    simp only [cons_append, Emitted.bindings_cons_binder, Emitted.bindings_append, total_cons, total_append,
      Emitted.tally, Binding.adds] at hfirst hrest ⊢
    omega

theorem ExpandsClosures.tally {hs : List Hoisted} {xs : List Emitted} : ExpandsClosures dedupe hs xs →
    total (Emitted.tally t) xs + total (Binding.removes t) (Emitted.bindings xs) =
      total (fun h => h.declaration.tally t) hs + total (Binding.adds t) (Emitted.bindings xs)
  | .nil => rfl
  | .cons hclosure hclosures => by
    have hfirst := hclosure.tally (fun _ => rfl) (fun _ => rfl)
    have hrest := hclosures.tally
    simp only [Emitted.bindings_append, total_cons, total_append]
    omega

end

theorem tally_of_expands {items : List Node} {groups : List (List Emitted)}
    (h : Forall₂ (Expands dedupe .own) items groups) :
    total (Emitted.tally t) groups.flatten + total (Binding.removes t) (Emitted.bindings groups.flatten) =
      total (Node.tally t) items + total (Binding.adds t) (Emitted.bindings groups.flatten) := by
  induction h
  case nil => rfl
  case cons hitem _ hi =>
    have hfirst := hitem.tally t (fun _ => rfl) (fun _ => rfl)
    simp only [flatten_cons, Emitted.bindings_append, total_append, total_cons]
    omega

end

-- What a binder removes and adds, in the terms of the report.
theorem Binding.adds_removes (t : Tally) {b : Binding} (hc : ∀ h ∈ b.hoisted, h.arrow.label.isClosure = true) :
    b.adds t + t.perClosure * b.hoisted.length + t.perBindCall * b.bindSites =
      b.removes t + t.perBinder + t.perDeclaration * b.hoisted.length := by
  have hsites : total (Use.removes t) (replicate b.bindSites (.bindCall b)) = t.perBindCall * b.bindSites := by
    rw [total, map_replicate, sum_replicate_nat, Nat.mul_comm, Use.removes]
  have hclosures (hs : List Hoisted) (hhs : ∀ h ∈ hs, h.arrow.label.isClosure = true) :
      total (fun h => h.declaration.tally t) hs + t.perClosure * hs.length =
        total (Use.removes t) (hs.map (.closure b)) + t.perDeclaration * hs.length := by
    induction hs
    case nil => rfl
    case cons h hs hi =>
      have ⟨hh, hhs⟩ := forall_mem_cons.mp hhs
      have hfirst := Hoisted.tally_declaration t hh
      have hrest := hi hhs
      simp only [map_cons, total_cons, length_cons, Use.removes, Nat.mul_succ]
      omega
  have := hclosures b.hoisted hc
  rw [adds, removes, uses, total_append, hsites]
  omega

namespace Program

variable {p : Program} {c : Config}

theorem isClosure_of_mem_hoisted {dedupe : Bool} {b : Binding} {h : Hoisted} (hb : b ∈ p.bindings dedupe)
    (hh : h ∈ b.hoisted) : h.arrow.label.isClosure = true := by
  obtain ⟨groups, hgroups, hitems⟩ := p.exists_groups dedupe
  rw [bindings, Expansion.bindings, hitems] at hb
  obtain ⟨_, _, _, _, hexpands, hb⟩ := exists_expands hgroups hb
  obtain ⟨_, n, _, hbelongs⟩ := hexpands.made (fun _ => rfl) hb
  have harrow : h.arrow ∈ (n.at .body).flatMap Node.closures := hbelongs.closures ▸ mem_map_of_mem hh
  obtain ⟨body, _, hmem⟩ := mem_flatMap.mp harrow
  exact (Node.mem_closures body hmem).1

-- The item in front of the others is not counted.
theorem tally_result (t : Tally) (p : Program) (c : Config) :
    (p.memoize c).program.tally t = total (Emitted.tally t) (p.expansion c.dedupeCaptures).2.items := by
  have himports : total (Node.tally t) (p.imports c) = 0 := by
    rw [imports]
    split
    case isTrue  => simp [tally_memoizeImport]
    case isFalse => rfl
  rw [tally, memoize_body_eq, total_append, himports, Nat.zero_add, total, map_map, total]
  exact congrArg sum <| map_congr_left fun x _ => x.tally_node ..

-- The sums of a report.

theorem bindSites_eq_total (p : Program) (c : Config) :
    (p.memoize c).report.bindSites = total Binding.bindSites (p.bindings c.dedupeCaptures) :=
  (total_eq_foldr ..).symm

theorem hoistedClosures_eq_total (p : Program) (c : Config) :
    (p.memoize c).report.hoistedClosures = total (·.hoisted.length) (p.bindings c.dedupeCaptures) :=
  (total_eq_foldr ..).symm

-- Every difference in number between a program and its result is in the report.
theorem tally_memoize (t : Tally) (p : Program) (c : Config) :
    (p.memoize c).program.tally t + t.perClosure * (p.memoize c).report.hoistedClosures +
        t.perBindCall * (p.memoize c).report.bindSites =
      p.tally t + t.perBinder * (p.memoize c).report.rewrittenFunctions +
        t.perDeclaration * (p.memoize c).report.hoistedClosures := by
  obtain ⟨groups, hgroups, hitems⟩ := p.exists_groups c.dedupeCaptures
  have hexpands := tally_of_expands t hgroups
  have hresult := tally_result t p c
  rw [hitems] at hresult
  have hbindings (bs : List Binding) (hbs : bs ⊆ p.bindings c.dedupeCaptures) :
      total (Binding.adds t) bs + t.perClosure * total (·.hoisted.length) bs +
          t.perBindCall * total Binding.bindSites bs =
        total (Binding.removes t) bs + t.perBinder * bs.length +
          t.perDeclaration * total (·.hoisted.length) bs := by
    induction bs
    case nil => rfl
    case cons b bs hi =>
      obtain ⟨hb, hbs⟩ := cons_subset.mp hbs
      have hfirst := b.adds_removes t fun _ => isClosure_of_mem_hoisted hb
      have hrest := hi hbs
      simp only [total_cons, length_cons, Nat.mul_add, Nat.mul_one]
      omega
  have hreport := hbindings _ (Subset.refl _)
  have heq : p.bindings c.dedupeCaptures = Emitted.bindings groups.flatten := congrArg Emitted.bindings hitems
  have hrewritten : (p.memoize c).report.rewrittenFunctions = (p.bindings c.dedupeCaptures).length := rfl
  have hbefore : p.tally t = total (Node.tally t) p.body := rfl
  rw [← heq] at hexpands
  rw [bindSites_eq_total, hoistedClosures_eq_total, hrewritten, hbefore]
  omega

-- That a report accounts for the difference between a program and its result.
structure Balanced (p : Program) (c : Config) : Prop where
  -- Every hoisted closure is gone, and every binder is declared with one.
  closures :
    (p.memoize c).program.tally .closure + (p.memoize c).report.hoistedClosures =
      p.tally .closure + (p.memoize c).report.rewrittenFunctions
  declarations :
    (p.memoize c).program.tally .declaration = p.tally .declaration + (p.memoize c).report.hoistedClosures
  -- Every rewritten bind call is gone, and every binder is declared with one.
  bindCalls :
    (p.memoize c).program.tally .bindCall + (p.memoize c).report.bindSites =
      p.tally .bindCall + (p.memoize c).report.rewrittenFunctions
  markup : (p.memoize c).program.tally .markup = p.tally .markup
  imported : (p.memoize c).report.importInserted ↔ 0 < (p.memoize c).report.rewrittenFunctions
  rewritten : (p.memoize c).report.rewrittenFunctions ≤ (p.memoize c).report.renderFunctions

theorem balanced (p : Program) (c : Config) : p.Balanced c where
  closures     := by simpa [Tally.perClosure, Tally.perBindCall, Tally.perBinder, Tally.perDeclaration]
                    using tally_memoize .closure p c
  declarations := by simpa [Tally.perClosure, Tally.perBindCall, Tally.perBinder, Tally.perDeclaration]
                    using tally_memoize .declaration p c
  bindCalls    := by simpa [Tally.perClosure, Tally.perBindCall, Tally.perBinder, Tally.perDeclaration]
                    using tally_memoize .bindCall p c
  markup       := by simpa [Tally.perClosure, Tally.perBindCall, Tally.perBinder, Tally.perDeclaration]
                    using tally_memoize .markup p c
  imported     := by rw [importInserted_eq, decide_eq_true_eq]
  rewritten    := by
    obtain ⟨_, unused, _, haccount⟩ := p.generatedNames_account c.dedupeCaptures
    exact Nat.le.intro haccount

end Program

end RenderMemo
