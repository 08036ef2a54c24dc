import RenderMemo.Proofs.Captures
import RenderMemo.Proofs.Declarations
import RenderMemo.Proofs.Places

namespace RenderMemo

-- What a closure says of itself once it was a declaration. No arrow function is a generator.
def arrowAttrs (as : List (String × Json)) : List (String × Json) :=
  as.filter (·.1 == "async") ++ [("generator", .bool false)]

-- Only the mark of its syntax is gone.
example (scope : Nat) (async : Bool) :
    arrowAttrs [("ctxt", .nat scope), ("async", .bool async), ("generator", .bool false)] =
      [("async", .bool async), ("generator", .bool false)] :=
  rfl

-- The declarations of closures that are known, by their names.
abbrev Closures := List (String × Node)

namespace Node

-- The arrow function that a declaration stands for after the name and its first parameters.
def arrowOf (d : Node) (span : Span) (k : Nat) : Node :=
  .mk (.form .arrowFunctionExpression span (arrowAttrs d.attrs))
    ((d.edges.tail.drop k).map Hoisted.undeclaredEdge)

-- The parts of a call `binder(target, ...)`: its target, and what follows it.
def boundParts? (binders : List String) : List Edge → Option (Node × List Edge)
  | (.callee, c) :: (.arguments, mk (.form .entry _ _) [(.expression, target)]) :: rest =>
    if c.label.ident?.any (binders.contains ·.name) then some (target, rest) else none
  | _ => none

-- `binder(closure, this, captured)` becomes the arrow function that the closure was, and any other
-- call `binder(target, context, args)` becomes `target.bind(context, args)`.
def unbound (binders : List String) (cs : Closures) : Node → Node
  | mk (.form .callExpression s as) es =>
    match boundParts? binders es with
    | some (target, rest) =>
      match target.label.ident?.bind (cs.lookup ·.name) with
      | some d => d.arrowOf s (rest.length - 1)
      | none   => mk (.form .callExpression s as) ((.callee, member target "bind") :: rest)
    | none => mk (.form .callExpression s as) es
  | n => n

end Node

-- A tree in which nothing goes through a binder any more.
mutual

def Node.inlined (binders : List String) (cs : Closures) : Node → Node
  | .mk l es => (Node.mk l (inlinedEdges binders cs es)).unbound binders cs

def inlinedEdges (binders : List String) (cs : Closures) : List Edge → List Edge
  | [] => []
  | (f, n) :: es => (f, n.inlined binders cs) :: inlinedEdges binders cs es

end

-- What a tree is restored to. Everything is as it was, except that an arrow function may be made anew
-- from a declaration, which keeps no mark of its syntax and returns from a block what was its body, and
-- that the callee of a bind call may be made anew.
mutual

inductive Restored : Node → Node → Prop
  | keep {l : Label} {es es' : List Edge} :
      RestoredEdges es es' → Restored (.mk l es) (.mk l es')
  | arrow {s : Span} {as : List (String × Json)} {es es' : List Edge} :
      RestoredEdges (es.map Hoisted.blockEdge) es' →
      Restored (.mk (.form .arrowFunctionExpression s as) es)
        (.mk (.form .arrowFunctionExpression s (arrowAttrs as)) es')
  | bind {s : Span} {as : List (String × Json)} {es rest rest' : List Edge} {target target' : Node} :
      bindParts? es = some (target, rest) → Restored target target' → RestoredEdges rest rest' →
      Restored (.mk (.form .callExpression s as) es)
        (.mk (.form .callExpression s as) ((.callee, .member target' "bind") :: rest'))

inductive RestoredEdges : List Edge → List Edge → Prop
  | nil : RestoredEdges [] []
  | cons {f : Field} {n n' : Node} {es es' : List Edge} :
      Restored n n' → RestoredEdges es es' → RestoredEdges ((f, n) :: es) ((f, n') :: es')

end

namespace Restored

theorem of_parameter (n m : Node) (h : Restored (.parameter n) m) :
    ∃ m', m = .parameter m' ∧ Restored n m' := by
  generalize hn : Node.parameter n = n' at h
  cases h
  case keep hes =>
    cases hn
    cases hes
    case cons hm hnil =>
      cases hnil
      exact ⟨_, rfl, hm⟩
  case arrow => cases hn
  case bind  => cases hn

end Restored

-- A tree without sites is restored to the last mark.
mutual

theorem Restored.eq_of_siteless {n n' : Node} : Restored n n' → n.Siteless → n' = n
  | .keep hes, h => by rw [hes.eq_of_siteless (Node.siteless_mk.mp h).2]
  | .arrow _, h => absurd (Node.siteless_mk.mp h).1 (by simp [Node.isSite, Node.label, Label.isClosure])
  | .bind hp _ _, h => absurd (Node.siteless_mk.mp h).1 (by simp [Node.isSite, Node.isBindCall, hp])

theorem RestoredEdges.eq_of_siteless {es es' : List Edge} :
    RestoredEdges es es' → SitelessEdges es → es' = es
  | .nil, _ => rfl
  | .cons hn hes, h => by
    have ⟨hsn, hses⟩ := sitelessEdges_cons.mp h
    rw [hn.eq_of_siteless hsn, hes.eq_of_siteless hses]

end

theorem RestoredEdges.related :
    ∀ {es es' : List Edge}, RestoredEdges es es' ↔ EdgesRelated Restored es es'
  | [], es' => by
    constructor
    case mp =>
      intro h
      cases h
      exact .nil
    case mpr =>
      intro h
      cases h
      exact .nil
  | e :: es, es' => by
    constructor
    case mp =>
      intro h
      cases h
      case cons hn hes => exact .cons ⟨rfl, hn⟩ (related.mp hes)
    case mpr =>
      intro h
      cases h
      case cons e' es' he hes =>
        have ⟨hf, hn⟩ := he
        rw [← Prod.eta e', hf]
        exact .cons hn (related.mpr hes)

-- A closure is restored from its declaration, if the parts of the declaration are restored.
theorem Hoisted.restored_arrowOf {h : Hoisted} {es : List Edge} (hc : h.arrow.label.isClosure = true)
    (hes : RestoredEdges h.declaredEdges es) :
    Restored h.arrow <|
      (Node.mk h.declarationLabel ((.identifier, .named h.name) :: es)).arrowOf h.arrow.span
        h.captured.length := by
  have hparts : RestoredEdges (h.arrow.edges.map blockEdge)
      ((es.drop h.captured.length).map undeclaredEdge) := by
    have hes := List.forall₂_drop h.captured.length <| RestoredEdges.related.mp hes
    rw [declaredEdges, List.drop_left' (by simp)] at hes
    exact RestoredEdges.related.mpr <| EdgesRelated.undeclare Restored.of_parameter hes
  have hattrs : arrowAttrs (Node.mk h.declarationLabel ((.identifier, .named h.name) :: es)).attrs =
      arrowAttrs h.arrow.attrs := by
    simp [arrowAttrs, declarationLabel, Node.attrs]
  rw [Node.arrowOf, hattrs]
  obtain ⟨name, captured, ⟨l, arrowEdges⟩⟩ := h
  cases l
  case form k s as =>
    cases k
    case arrowFunctionExpression => exact .arrow hparts
    all_goals cases hc
  all_goals cases hc

-- A closure is known if its declaration, as it is known, stands for the closure.
def Hoisted.KnownIn (h : Hoisted) (cs : Closures) : Prop :=
  ∃ d, cs.lookup h.name = some d ∧ Restored h.arrow (d.arrowOf h.arrow.span h.captured.length)

-- An identifier that is neither the name of a binder nor that of a known closure.
def Ident.ForeignTo (binders : List String) (cs : Closures) (i : Ident) : Prop :=
  i.name ∉ binders ∧ cs.lookup i.name = none

section

variable {binders : List String} {cs : Closures}

theorem Node.unbound_of_not_call {l : Label} {es : List Edge} (hl : l.kind? ≠ some .callExpression) :
    (Node.mk l es).unbound binders cs = .mk l es := by
  unfold unbound
  split
  case h_1 heq =>
    cases heq
    exact absurd rfl hl
  case h_2 => rfl

theorem Node.unbound_of_foreign {l : Label} {es : List Edge}
    (h : ∀ c rest, es = (.callee, c) :: rest → ∀ i, c.label.ident? = some i → i.name ∉ binders) :
    (Node.mk l es).unbound binders cs = .mk l es := by
  have hparts : boundParts? binders es = none := by
    unfold boundParts?
    split
    case h_1 c _ _ _ _ =>
      have := h c _ rfl
      rw [if_neg]
      cases hc : c.label.ident?
      case none   => simp
      case some i => simpa using this i hc
    case h_2 => rfl
  unfold unbound
  split
  case h_1 heq =>
    cases heq
    simp [hparts]
  case h_2 => rfl

-- No identifier is made where a call is replaced.
theorem Node.ident?_unbound {n : Node} {i : Ident} (h : (n.unbound binders cs).label.ident? = some i) :
    n.label.ident? = some i := by
  unfold unbound at h
  split at h
  case h_1 =>
    split at h
    case h_1 =>
      split at h
      case h_1 => cases h
      case h_2 => cases h
    case h_2 => cases h
  case h_2 => exact h

theorem Node.ident?_inlined {n : Node} {i : Ident}
    (h : (n.inlined binders cs).label.ident? = some i) : n.label.ident? = some i := by
  cases n
  case mk l es => exact ident?_unbound (n := .mk l (inlinedEdges binders cs es)) h

theorem Node.inlined_ofIdent (i : Ident) : (ofIdent i).inlined binders cs = ofIdent i :=
  rfl

theorem Node.inlined_entry (n : Node) :
    (entry n).inlined binders cs = entry (n.inlined binders cs) :=
  rfl

-- The call that stands for a known closure becomes the arrow function that its declaration stands for.
theorem Hoisted.inlined_call {h : Hoisted} {binder : String} {d : Node} (hb : binder ∈ binders)
    (hd : cs.lookup h.name = some d) :
    (h.call binder).inlined binders cs = d.arrowOf h.arrow.span h.captured.length := by
  have hargs (is : List Ident) :
      inlinedEdges binders cs (is.map fun i => (.arguments, .entry (.ofIdent i))) =
        is.map fun i => (.arguments, .entry (.ofIdent i)) := by
    induction is
    case nil => rfl
    case cons i is hi => simp [inlinedEdges, hi, Node.inlined_entry, Node.inlined_ofIdent]
  have hthis : (Node.entry .this).inlined binders cs = .entry .this := rfl
  simp only [call, Node.callAt, List.map_cons, List.map_map, Function.comp_def, Node.inlined,
    inlinedEdges, hargs, Node.named, Node.inlined_ofIdent, Node.inlined_entry, hthis]
  simp [Node.unbound, Node.boundParts?, Node.entry, Node.form, Node.ofIdent, Node.label, Label.ident?, hb,
    hd]

-- A bind call that goes through a binder becomes a bind call again, unless its target is a closure.
theorem Node.inlined_bind {s : Span} {as : List (String × Json)} {binder : String} {target : Node}
    {rest : List Edge} (hb : binder ∈ binders)
    (ht : ∀ i, target.label.ident? = some i → cs.lookup i.name = none) :
    (mk (.form .callExpression s as)
        ((.callee, named binder) :: (.arguments, entry target) :: rest)).inlined binders cs =
      mk (.form .callExpression s as)
        ((.callee, member (target.inlined binders cs) "bind") :: inlinedEdges binders cs rest) := by
  have htarget : (target.inlined binders cs).label.ident?.bind (cs.lookup ·.name) = none := by
    cases hi : (target.inlined binders cs).label.ident?
    case none   => rfl
    case some i => exact ht i (ident?_inlined hi)
  simp only [inlined, inlinedEdges, named, inlined_ofIdent, inlined_entry]
  have hparts : boundParts? binders ((.callee, ofIdent { name := binder }) ::
      (.arguments, entry (target.inlined binders cs)) :: inlinedEdges binders cs rest) =
        some (target.inlined binders cs, inlinedEdges binders cs rest) := by
    simp [boundParts?, entry, form, ofIdent, label, Label.ident?, hb]
  simp only [unbound, hparts, htarget]

end

-- What has to be known to undo bindings: their binders by name, and their closures.
structure Undoes (binders : List String) (cs : Closures) (bs : List Binding) : Prop where
  binder  : ∀ b ∈ bs, b.binder ∈ binders
  closure : ∀ b ∈ bs, ∀ h ∈ b.hoisted, h.KnownIn cs

-- What is called in a rewritten tree, and no call that was rewritten, was called before.
theorem RewritesEdges.foreign_callee {binders : List String} {cs : Closures} {bs : List Binding}
    {es es' : List Edge} (h : RewritesEdges bs es es')
    (hi : ∀ i ∈ identsOfEdges es, i.ForeignTo binders cs) :
    ∀ c rest, inlinedEdges binders cs es' = (.callee, c) :: rest →
      ∀ i, c.label.ident? = some i → i.name ∉ binders := by
  intro c rest heq i hc
  cases h
  case nil => cases heq
  case cons n n' _ _ hn _ =>
    have ⟨he, _⟩ := List.cons_eq_cons.mp heq
    have ⟨_, hinlined⟩ := Prod.mk.inj he
    subst hinlined
    have hn' := Node.ident?_inlined hc
    have hm := n.mem_idents_of_mem_ident? <| (hn.ident?_eq hn').trans hn'
    exact (hi i <| List.mem_append_left _ hm).1

-- A tree that speaks of none of the names in use is restored from what it was rewritten to.
mutual

theorem Rewrites.restored {binders : List String} {cs : Closures} {bs : List Binding} {n n' : Node}
    (hu : Undoes binders cs bs) :
    Rewrites bs n n' → (∀ i ∈ n.idents, i.ForeignTo binders cs) → Restored n (n'.inlined binders cs)
  | .keep hes, hi => by
    have hcallee := hes.foreign_callee fun i hm => hi i <| List.mem_append_right _ hm
    rw [Node.inlined, Node.unbound_of_foreign hcallee]
    exact .keep <| hes.restored hu fun i hm => hi i <| List.mem_append_right _ hm
  | .bind hb hp htarget hrest, hi => by
    have ⟨_, _, _, heq⟩ := bindParts?_eq_some_iff.mp hp
    subst heq
    simp only [Node.idents, identsOfEdges, Label.ident?, Option.toList_none, List.nil_append,
      List.append_nil, List.forall_mem_append] at hi
    have ⟨hitarget, hirest⟩ := hi
    have hlookup (i : Ident) (h : _) := (hitarget i <| Node.mem_idents_of_mem_ident? _ <|
      (htarget.ident?_eq h).trans h).2
    rw [Node.inlined_bind (hu.binder _ hb) hlookup]
    exact .bind hp (htarget.restored hu hitarget) (hrest.restored hu hirest)
  | .closure hb hh _, _ => by
    have ⟨d, hd, hrestored⟩ := hu.closure _ hb _ hh
    rw [Hoisted.inlined_call (hu.binder _ hb) hd]
    exact hrestored

theorem RewritesEdges.restored {binders : List String} {cs : Closures} {bs : List Binding}
    {es es' : List Edge} (hu : Undoes binders cs bs) :
    RewritesEdges bs es es' → (∀ i ∈ identsOfEdges es, i.ForeignTo binders cs) →
      RestoredEdges es (inlinedEdges binders cs es')
  | .nil, _ => .nil
  | .cons hn hes, hi => by
    have ⟨hin, hies⟩ := List.forall_mem_append.mp hi
    exact .cons (hn.restored hu hin) (hes.restored hu hies)

end

-- A closure is restored from its declaration, whatever was rewritten in it.
theorem Rewrites.restored_arrow {binders : List String} {cs : Closures} {bs : List Binding} {h : Hoisted}
    {d : Node} (hd : Rewrites bs h.declaration d) (hc : h.arrow.label.isClosure = true)
    (hu : Undoes binders cs bs) (hi : ∀ i ∈ identsOfEdges h.declaredEdges, i.ForeignTo binders cs) :
    Restored h.arrow ((d.inlined binders cs).arrowOf h.arrow.span h.captured.length) := by
  have ⟨es, hn, hes⟩ := hd.of_declaration
  have hinlined : d.inlined binders cs =
      .mk h.declarationLabel ((.identifier, .named h.name) :: inlinedEdges binders cs es) := by
    rw [hn, Node.inlined, Node.unbound_of_not_call (by simp [Hoisted.declarationLabel, Label.kind?])]
    rfl
  rw [hinlined]
  exact Hoisted.restored_arrowOf hc (hes.restored hu hi)

end RenderMemo
