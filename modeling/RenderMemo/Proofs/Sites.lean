import RenderMemo.Proofs.Subtrees

namespace RenderMemo

-- A closure site is an arrow function or a call of the form `target.bind(...)`.
def Node.isSite (n : Node) : Bool := n.label.isClosure || n.isBindCall

-- No site stands in the tree, at any depth.
def Node.Siteless (n : Node) : Prop := ∀ m ∈ n.subtrees, m.isSite = false

def SitelessEdges (es : List Edge) : Prop := ∀ e ∈ es, e.2.Siteless

@[simp]
theorem sitelessEdges_nil : SitelessEdges [] := by
  simp [SitelessEdges]

@[simp]
theorem sitelessEdges_cons {f : Field} {n : Node} {es : List Edge} :
    SitelessEdges ((f, n) :: es) ↔ n.Siteless ∧ SitelessEdges es := by
  simp [SitelessEdges]

namespace Node

variable {l : Label} {es : List Edge} {n m : Node}

theorem siteless_mk : (mk l es).Siteless ↔ (mk l es).isSite = false ∧ SitelessEdges es := by
  simp only [Siteless, SitelessEdges, mem_subtrees_mk, forall_eq_or_imp]
  refine and_congr_right fun _ => ⟨fun h e he m hm => h m ⟨e, he, hm⟩, ?_⟩
  rintro h m ⟨e, he, hm⟩
  exact h e he m hm

theorem Siteless.of_mem_subtrees (h : n.Siteless) (hm : m ∈ n.subtrees) : m.Siteless :=
  fun k hk => h k (subtrees_trans hk n hm)

theorem isSite_eq_false_iff : n.isSite = false ↔ n.label.isClosure = false ∧ n.isBindCall = false := by
  simp [isSite]

@[simp]
theorem siteless_ofIdent (i : Ident) : (ofIdent i).Siteless :=
  siteless_mk.mpr ⟨rfl, sitelessEdges_nil⟩

@[simp]
theorem siteless_named (name : String) : (named name).Siteless :=
  siteless_ofIdent _

@[simp]
theorem siteless_this : this.Siteless :=
  siteless_mk.mpr ⟨rfl, sitelessEdges_nil⟩

@[simp]
theorem siteless_entry : (entry n).Siteless ↔ n.Siteless := by
  simp [entry, form, siteless_mk, isSite, isBindCall, label, Label.isClosure]

-- A node is a bind call by its form and its parts.
theorem isBindCall_mk : (mk l es).isBindCall ↔ l.kind? = some .callExpression ∧ (bindParts? es).isSome := by
  cases l
  case form k s as => cases k <;> simp [isBindCall, Label.kind?]
  all_goals simp [isBindCall, Label.kind?]

theorem throughBinder_of_not_isBindCall (binder : String) (h : n.isBindCall = false) :
    n.throughBinder binder = n := by
  unfold throughBinder
  split
  case h_1 s as es =>
    split
    case h_1 heq => simp [isBindCall, heq] at h
    case h_2 => rfl
  case h_2 => rfl

end Node

-- A tree without sites is one that has neither closures nor bind calls outside of them.
mutual

theorem Node.siteless_iff : ∀ n : Node, n.Siteless ↔ n.closures = [] ∧ n.bindCalls = 0
  | .mk l es => by
    rw [Node.siteless_mk, Node.isSite_eq_false_iff, sitelessEdges_iff es]
    by_cases hl : l.isClosure = true
    · simp [Node.closures, Node.label, hl]
    · cases hb : (Node.mk l es).isBindCall <;> simp [Node.closures, Node.bindCalls, Node.label, hl, hb]

theorem sitelessEdges_iff :
    ∀ es : List Edge, SitelessEdges es ↔ closuresOfEdges es = [] ∧ bindCallsOfEdges es = 0
  | [] => by simp [closuresOfEdges, bindCallsOfEdges]
  | (_, n) :: es => by
    simp only [sitelessEdges_cons, closuresOfEdges, bindCallsOfEdges, List.append_eq_nil_iff,
      Nat.add_eq_zero_iff, Node.siteless_iff n, sitelessEdges_iff es]
    exact and_and_and_comm

end

-- Where there is no site, there is nothing to lead through a binder.
mutual

theorem Node.rebound_of_siteless (binder : String) (rs : List Node) :
    ∀ n : Node, n.Siteless → n.rebound binder rs = n
  | .mk l es, h => by
    have ⟨hsite, hes⟩ := Node.siteless_mk.mp h
    have ⟨hl, hb⟩ := Node.isSite_eq_false_iff.mp hsite
    simp only [Node.label] at hl
    simp only [Node.rebound, hl, reboundEdges_of_siteless binder rs es hes]
    exact Node.throughBinder_of_not_isBindCall binder hb

theorem reboundEdges_of_siteless (binder : String) (rs : List Node) :
    ∀ es : List Edge, SitelessEdges es → reboundEdges binder es rs = es
  | [], _ => rfl
  | (f, n) :: es, h => by
    have ⟨hn, hes⟩ := sitelessEdges_cons.mp h
    simp only [reboundEdges, Node.rebound_of_siteless binder _ n hn,
      reboundEdges_of_siteless binder _ es hes]

end

end RenderMemo
