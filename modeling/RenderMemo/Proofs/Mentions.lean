import RenderMemo.Proofs.Uses

open List

namespace RenderMemo

-- The names of all identifiers of a tree, in the order of the visit.
def Node.mentions (n : Node) : List String := n.idents.map Ident.name

def mentionsOfEdges (es : List Edge) : List String := (identsOfEdges es).map Ident.name

theorem Node.mentions_mk (l : Label) (es : List Edge) :
    (mk l es).mentions = l.ident?.toList.map Ident.name ++ mentionsOfEdges es := by
  rw [mentions, idents, map_append, mentionsOfEdges]

@[simp]
theorem mentionsOfEdges_cons (e : Edge) (es : List Edge) :
    mentionsOfEdges (e :: es) = e.2.mentions ++ mentionsOfEdges es := by
  rw [mentionsOfEdges, identsOfEdges, map_append]
  rfl

@[simp]
theorem mentionsOfEdges_nil : mentionsOfEdges [] = [] :=
  rfl

@[simp]
theorem Node.mentions_ofIdent (i : Ident) : (ofIdent i).mentions = [i.name] :=
  rfl

@[simp]
theorem Node.mentions_named (name : String) : (named name).mentions = [name] :=
  rfl

@[simp]
theorem Node.mentions_entry (n : Node) : (entry n).mentions = n.mentions := by
  simp [entry, form, mentions_mk, Label.ident?]

@[simp]
theorem mentionsOfEdges_append (es fs : List Edge) :
    mentionsOfEdges (es ++ fs) = mentionsOfEdges es ++ mentionsOfEdges fs := by
  simp [mentionsOfEdges]

@[simp]
theorem Node.mentions_parameter (n : Node) : (parameter n).mentions = n.mentions := by
  simp [parameter, form, mentions_mk, Label.ident?]

theorem Node.mentionsOfEdges_subset (n : Node) : mentionsOfEdges n.edges ⊆ n.mentions := by
  cases n
  case mk l es =>
    rw [mentions_mk]
    exact subset_append_right ..

theorem Node.mentions_subset_of_mem_subtrees {n m : Node} (hm : m ∈ n.subtrees) :
    m.mentions ⊆ n.mentions :=
  map_subset _ <| idents_subset_of_mem_subtrees n hm

-- A bind call mentions what its target and its arguments mention.
theorem mentionsOfEdges_of_bindParts? {es rest : List Edge} {target : Node}
    (h : bindParts? es = some (target, rest)) :
    mentionsOfEdges es = target.mentions ++ mentionsOfEdges rest := by
  obtain ⟨_, _, _, heq⟩ := bindParts?_eq_some_iff.mp h
  simp [heq, Node.mentions_mk, Label.ident?]

theorem Hoisted.mentions_call (h : Hoisted) (binder : String) :
    (h.call binder).mentions = binder :: h.name :: h.captured.map Ident.name := by
  have hcaptured (is : List Ident) :
      mentionsOfEdges (is.map fun i => (.arguments, .entry (.ofIdent i))) = is.map Ident.name := by
    induction is
    case nil          => rfl
    case cons i is hi => simp [hi]
  have hthis : (Node.entry .this).mentions = [] := rfl
  simp [call, Node.callAt, Node.mentions_mk, Label.ident?, Function.comp_def, hcaptured, hthis]

namespace Use

-- What a use puts into a tree, and what it takes out of it.

def made : Use → List String
  | bindCall b => [b.binder]
  | closure b h => (h.call b.binder).mentions

def moved : Use → List String
  | bindCall _ => []
  | closure _ h => h.arrow.mentions

end Use

-- No mention is lost, and none is doubled: what a rewritten tree does not mention any more went into
-- the closures, and what it mentions besides is in the calls of the binders.
mutual

theorem RewritesBy.count_mentions (x : String) {us : List Use} {n n' : Node} : RewritesBy us n n' →
    n'.mentions.count x + (us.flatMap Use.moved).count x =
      n.mentions.count x + (us.flatMap Use.made).count x
  | .keep hes => by
    have := hes.count_mentions x
    simp only [Node.mentions_mk, count_append]
    omega
  | .closure _ _ => by simp [Use.moved, Use.made, Nat.add_comm]
  | .bind hp htarget hrest => by
    have := htarget.count_mentions x
    have := hrest.count_mentions x
    simp only [Node.mentions_mk, mentionsOfEdges_of_bindParts? hp, mentionsOfEdges_cons, Node.mentions_named,
      Node.mentions_entry, flatMap_cons, flatMap_append, count_append, Use.moved, Use.made, count_nil]
    omega

theorem RewritesEdgesBy.count_mentions (x : String) {us : List Use} {es es' : List Edge} :
    RewritesEdgesBy us es es' →
      (mentionsOfEdges es').count x + (us.flatMap Use.moved).count x =
        (mentionsOfEdges es).count x + (us.flatMap Use.made).count x
  | .nil => rfl
  | .cons hn hes => by
    have := hn.count_mentions x
    have := hes.count_mentions x
    simp only [mentionsOfEdges_cons, flatMap_append, count_append]
    omega

end

-- What a binder is called by, and what the closure is called that is handed to it.
def Use.names : Use → List String
  | bindCall b  => [b.binder]
  | closure b h => [b.binder, h.name]

namespace Hoisted

-- A closure that does not mention a name.
structure Avoids (h : Hoisted) (x : String) : Prop where
  arrow    : x ∉ h.arrow.mentions
  captured : x ∉ h.captured.map Ident.name

theorem LiftedFrom.avoids {h : Hoisted} {dedupe : Bool} {n : Node} {x : String}
    (lifted : h.LiftedFrom dedupe n) (hx : x ∉ n.mentions) : h.Avoids x where
  arrow    := fun hm => hx <| Node.mentions_subset_of_mem_subtrees lifted.mem hm
  captured := by
    intro hm
    have ⟨i, hi, heq⟩ := mem_map.mp hm
    have hi := Node.captured_subset _ <| lifted.captured_subset hi
    exact hx <| Node.mentions_subset_of_mem_subtrees lifted.mem <| mem_map.mpr ⟨i, hi, heq⟩

theorem mentionsOfEdges_declaredEdges (h : Hoisted) :
    mentionsOfEdges h.declaredEdges = h.captured.map Ident.name ++ mentionsOfEdges h.arrow.edges := by
  have hcaptured (is : List Ident) :
      mentionsOfEdges (is.map fun i => (.params, .parameter (.ofIdent i))) = is.map Ident.name := by
    induction is
    case nil          => rfl
    case cons i is hi => simp [hi]
  have hparts (es : List Edge) : mentionsOfEdges (es.map declaredEdge) = mentionsOfEdges es := by
    induction es
    case nil          => rfl
    case cons e es hi => simp [hi, Node.mentions, idents_declaredEdge]
  rw [declaredEdges, mentionsOfEdges_append, hcaptured, hparts]

-- The declaration of a closure mentions its own name once.
theorem Avoids.count_declaration {h : Hoisted} {x : String} (hx : h.Avoids x) :
    h.declaration.mentions.count x = [h.name].count x := by
  have hrest : x ∉ mentionsOfEdges h.declaredEdges := by
    rw [mentionsOfEdges_declaredEdges, mem_append, not_or]
    exact ⟨hx.captured, fun hm => hx.arrow <| h.arrow.mentionsOfEdges_subset hm⟩
  rw [declaration_eq, Node.mentions_mk, mentionsOfEdges_cons, declarationLabel]
  simp [Label.ident?, count_cons, count_eq_zero_of_not_mem hrest]

end Hoisted

-- A name that no closure mentions is mentioned anew in the uses only.
theorem RewritesBy.count_mentions_of_avoids {us : List Use} {n n' : Node} {x : String}
    (h : RewritesBy us n n') (hus : ∀ b g, .closure b g ∈ us → g.Avoids x) :
    n'.mentions.count x = n.mentions.count x + (us.flatMap Use.names).count x := by
  have huses : (us.flatMap Use.made).count x = (us.flatMap Use.names).count x ∧
      (us.flatMap Use.moved).count x = 0 := by
    clear h
    induction us
    case nil => exact ⟨rfl, rfl⟩
    case cons u us hi =>
      obtain ⟨hmade, hmoved⟩ := hi fun b g hg => hus b g (mem_cons_of_mem _ hg)
      simp only [flatMap_cons, count_append, hmade, hmoved]
      cases u
      case bindCall => exact ⟨rfl, rfl⟩
      case closure b g =>
        have hg := hus b g mem_cons_self
        have hcaptured := count_eq_zero_of_not_mem hg.captured
        have harrow := count_eq_zero_of_not_mem hg.arrow
        simp [Use.made, Use.moved, Use.names, g.mentions_call, count_cons, hcaptured, harrow]
  have := h.count_mentions x
  omega

end RenderMemo
