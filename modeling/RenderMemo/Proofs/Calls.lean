import RenderMemo.Proofs.Hygiene
import RenderMemo.Proofs.Mentions

open List

namespace RenderMemo

-- The name that a call calls, if its callee is an identifier.
def Node.callee? (n : Node) : Option String :=
  if n.isKind .callExpression then (n.identAt? .callee).map Ident.name else none

theorem Node.callee?_mem_mentions {n : Node} {x : String} (h : n.callee? = some x) : x ∈ n.mentions := by
  rw [callee?, Option.ite_none_right_eq_some, Option.map_eq_some_iff] at h
  have ⟨_, i, hi, hx⟩ := h
  exact hx ▸ mem_map_of_mem (n.ident_mem_of_mem_places <| exists_place_of_identAt? hi)

-- Nothing inside the call that stands for a closure is a call.
theorem Hoisted.eq_call_of_callee? {h : Hoisted} {binder x : String} {m : Node}
    (hm : m ∈ (h.call binder).subtrees) (hcallee : m.callee? = some x) : m = h.call binder := by
  have hidents (is : List Ident) :
      m ∉ subtreesOfEdges (is.map fun i => (.arguments, .entry (.ofIdent i))) := by
    simp only [mem_subtreesOfEdges, mem_map, not_exists, not_and]
    rintro _ ⟨i, _, rfl⟩ hm
    simp only [Node.subtrees_entry, Node.subtrees_ofIdent, mem_cons, not_mem_nil, or_false] at hm
    rcases hm with rfl | rfl <;> cases hcallee
  have hthis : Node.this.subtrees = [.this] := rfl
  cases mem_cons.mp hm
  case inl heq => exact heq
  case inr hm =>
    simp only [subtreesOfEdges, map_cons, map_map, Function.comp_def, Node.subtrees_entry, Node.subtrees_named,
      hthis, mem_cons, mem_append, not_mem_nil, or_false] at hm
    rcases hm with rfl | (rfl | rfl) | (rfl | rfl) | hm
    case inr.inr.inr => exact absurd hm (hidents _)
    all_goals cases hcallee

theorem Node.subtrees_subset_of_mem_edges {l : Label} {es : List Edge} {e : Edge} (he : e ∈ es) :
    e.2.subtrees ⊆ (mk l es).subtrees :=
  fun _ hm => mem_subtrees_mk.mpr <| .inr ⟨e, he, hm⟩

-- The parts of a bind call are parts of the tree.
theorem subtrees_subset_of_bindParts? {es rest : List Edge} {target : Node}
    (h : bindParts? es = some (target, rest)) : target.subtrees ⊆ subtreesOfEdges es ∧ rest ⊆ es := by
  obtain ⟨_, _, _, heq⟩ := bindParts?_eq_some_iff.mp h
  subst heq
  refine ⟨fun m hm => mem_append_left _ ?_, subset_cons_self ..⟩
  exact Node.subtrees_subset_of_mem_edges mem_cons_self hm

-- The call that a use puts into a tree: the call that stands for a closure of the tree, or the one that
-- a bind call of the tree becomes. Its parts stay in their order, and the target comes in front of them.
inductive Use.Stands (bs : List Binding) (root : Node) : Use → Node → Prop
  | closure {b : Binding} {h : Hoisted} :
      h ∈ b.hoisted → h.arrow.label.isClosure = true → h.arrow ∈ root.subtrees →
      Stands bs root (.closure b h) (h.call b.binder)
  | bindCall {b : Binding} {s : Span} {as : List (String × Json)} {es rest rest' : List Edge}
      {target target' : Node} :
      .mk (.form .callExpression s as) es ∈ root.subtrees → bindParts? es = some (target, rest) →
      Rewrites bs target target' → RewritesEdges bs rest rest' →
      Stands bs root (.bindCall b)
        (.mk (.form .callExpression s as)
          ((.callee, .named b.binder) :: (.arguments, .entry target') :: rest'))

namespace Use.Stands

variable {bs : List Binding} {root root' m : Node} {u : Use}

-- It does not depend on more of the tree than its sites.
theorem of_sites (h : u.Stands bs root m)
    (hsites : ∀ k ∈ root.subtrees, k.isSite = true → k ∈ root'.subtrees) : u.Stands bs root' m := by
  cases h with
  | closure hh hc ha => exact .closure hh hc <| hsites _ ha (by rw [Node.isSite, hc, Bool.true_or])
  | bindCall hsite hp htarget hrest =>
    refine .bindCall (hsites _ hsite ?_) hp htarget hrest
    simp [Node.isSite, Node.isBindCall, hp]

theorem mono (h : u.Stands bs root m) (hsub : root.subtrees ⊆ root'.subtrees) : u.Stands bs root' m :=
  h.of_sites fun _ hk _ => hsub hk

theorem of_declaration {h : Hoisted} (hstands : u.Stands bs h.declaration m)
    (hsub : h.arrow.subtrees ⊆ root.subtrees) : u.Stands bs root m :=
  hstands.of_sites fun _ hk hs => hsub <| Hoisted.mem_subtrees_of_declaration hk hs

theorem callee? (h : u.Stands bs root m) : m.callee? = some u.binding.binder := by
  cases h <;> rfl

end Use.Stands

-- Every use that is made of a tree stands in the new tree.
mutual

theorem RewritesBy.exists_stands {bs : List Binding} {us : List Use} {n n' : Node} {u : Use} :
    RewritesBy us n n' → us.map Use.binding ⊆ bs → u ∈ us → ∃ m ∈ n'.subtrees, u.Stands bs n m
  | .keep hes, hbs, hu => by
    have ⟨e, he, e', he', m, hm, hstands⟩ := hes.exists_stands hbs hu
    exact ⟨m, Node.subtrees_subset_of_mem_edges he' hm, hstands.mono <| Node.subtrees_subset_of_mem_edges he⟩
  | .closure hh hc, _, hu => by
    cases mem_singleton.mp hu
    exact ⟨_, Node.mem_subtrees_self _, .closure hh hc (Node.mem_subtrees_self _)⟩
  | .bind hp htarget hrest, hbs, hu => by
    simp only [map_cons, map_append, cons_subset, append_subset] at hbs
    have ⟨_, hus, hvs⟩ := hbs
    have ⟨hsubtarget, hsubrest⟩ := subtrees_subset_of_bindParts? hp
    rcases mem_cons.mp hu with rfl | hu
    · refine ⟨_, Node.mem_subtrees_self _, .bindCall (Node.mem_subtrees_self _) hp ?_ ?_⟩
      · exact htarget.rewrites hus
      · exact hrest.rewrites hvs
    · cases mem_append.mp hu
      case inl hu =>
        have ⟨m, hm, hstands⟩ := htarget.exists_stands hus hu
        refine ⟨m, ?_, hstands.mono <| subset_cons_of_subset _ hsubtarget⟩
        apply Node.subtrees_subset_of_mem_edges <| mem_cons_of_mem _ mem_cons_self
        exact Node.subtrees_entry _ ▸ mem_cons_of_mem _ hm
      case inr hu =>
        have ⟨e, he, e', he', m, hm, hstands⟩ := hrest.exists_stands hvs hu
        refine ⟨m, ?_, hstands.mono <| Node.subtrees_subset_of_mem_edges <| hsubrest he⟩
        exact Node.subtrees_subset_of_mem_edges (mem_cons_of_mem _ <| mem_cons_of_mem _ he') hm

theorem RewritesEdgesBy.exists_stands {bs : List Binding} {us : List Use} {es es' : List Edge} {u : Use} :
    RewritesEdgesBy us es es' → us.map Use.binding ⊆ bs → u ∈ us →
      ∃ e ∈ es, ∃ e' ∈ es', ∃ m ∈ e'.2.subtrees, u.Stands bs e.2 m
  | .nil, _, hu => nomatch hu
  | .cons hn hes, hbs, hu => by
    rw [map_append, append_subset] at hbs
    cases mem_append.mp hu
    case inl hu => exact ⟨_, mem_cons_self, _, mem_cons_self, hn.exists_stands hbs.1 hu⟩
    case inr hu =>
      have ⟨e, he, e', he', hstands⟩ := hes.exists_stands hbs.2 hu
      exact ⟨e, mem_cons_of_mem _ he, e', mem_cons_of_mem _ he', hstands⟩

end

-- A node whose parts were rewritten one by one calls nothing that it did not call before.
theorem RewritesEdges.callee?_mem_mentions {bs : List Binding} {l : Label} {es es' : List Edge} {x : String}
    (h : RewritesEdges bs es es') (hcallee : (Node.mk l es').callee? = some x) : x ∈ mentionsOfEdges es := by
  rw [Node.callee?, Option.ite_none_right_eq_some, Option.map_eq_some_iff] at hcallee
  have ⟨_, i, hi, hx⟩ := hcallee
  have ⟨m', hm', hi⟩ := Node.mem_edges_of_identAt? hi
  have ⟨m, hm, hrewrites⟩ := h.exists_original hm'
  have hi := m.mem_idents_of_mem_ident? <| (hrewrites.ident?_eq hi).trans hi
  exact hx ▸ mem_map_of_mem (mem_identsOfEdges.mpr ⟨_, hm, hi⟩)

-- Every call of a name that the old tree does not mention is one that a use put there.
mutual

theorem RewritesBy.exists_use {bs : List Binding} {us : List Use} {n n' m : Node} {x : String} :
    RewritesBy us n n' → us.map Use.binding ⊆ bs → x ∉ n.mentions → m ∈ n'.subtrees →
      m.callee? = some x → ∃ u ∈ us, u.Stands bs n m
  | .keep hes, hbs, hx, hm, hcallee => by
    rw [Node.mentions_mk, mem_append, not_or] at hx
    cases mem_cons.mp hm
    case inl heq =>
      subst heq
      exact absurd ((hes.rewrites hbs).callee?_mem_mentions hcallee) hx.2
    case inr hm =>
      have ⟨u, hu, e, he, hstands⟩ := hes.exists_use hbs hx.2 hm hcallee
      exact ⟨u, hu, hstands.mono <| Node.subtrees_subset_of_mem_edges he⟩
  | .closure hh hc, _, _, hm, hcallee => by
    rw [Hoisted.eq_call_of_callee? hm hcallee]
    exact ⟨_, mem_cons_self, .closure hh hc (Node.mem_subtrees_self _)⟩
  | .bind hp htarget hrest, hbs, hx, hm, hcallee => by
    simp only [map_cons, map_append, cons_subset, append_subset] at hbs
    have ⟨_, hus, hvs⟩ := hbs
    have ⟨hsubtarget, hsubrest⟩ := subtrees_subset_of_bindParts? hp
    rw [Node.mentions_mk, mem_append, not_or, mentionsOfEdges_of_bindParts? hp, mem_append, not_or] at hx
    have ⟨_, hxtarget, hxrest⟩ := hx
    simp only [Node.subtrees, subtreesOfEdges, Node.subtrees_named, Node.subtrees_entry, mem_cons, mem_append,
      not_mem_nil, or_false] at hm
    rcases hm with rfl | rfl | (rfl | hm) | hm
    · refine ⟨_, mem_cons_self, .bindCall (Node.mem_subtrees_self _) hp ?_ ?_⟩
      · exact htarget.rewrites hus
      · exact hrest.rewrites hvs
    · exact nomatch hcallee
    · exact nomatch hcallee
    · have ⟨u, hu, hstands⟩ := htarget.exists_use hus hxtarget hm hcallee
      exact ⟨u, mem_cons_of_mem _ <| mem_append_left _ hu, hstands.mono <| subset_cons_of_subset _ hsubtarget⟩
    · have ⟨u, hu, e, he, hstands⟩ := hrest.exists_use hvs hxrest hm hcallee
      refine ⟨u, mem_cons_of_mem _ <| mem_append_right _ hu, hstands.mono ?_⟩
      exact Node.subtrees_subset_of_mem_edges (hsubrest he)

theorem RewritesEdgesBy.exists_use {bs : List Binding} {us : List Use} {es es' : List Edge} {m : Node}
    {x : String} :
    RewritesEdgesBy us es es' → us.map Use.binding ⊆ bs → x ∉ mentionsOfEdges es →
      m ∈ subtreesOfEdges es' → m.callee? = some x → ∃ u ∈ us, ∃ e ∈ es, u.Stands bs e.2 m
  | .nil, _, _, hm, _ => by simp at hm
  | .cons hn hes, hbs, hx, hm, hcallee => by
    rw [map_append, append_subset] at hbs
    rw [mentionsOfEdges_cons, mem_append, not_or] at hx
    cases mem_append.mp hm
    case inl hm =>
      have ⟨u, hu, hstands⟩ := hn.exists_use hbs.1 hx.1 hm hcallee
      exact ⟨u, mem_append_left _ hu, _, mem_cons_self, hstands⟩
    case inr hm =>
      have ⟨u, hu, e, he, hstands⟩ := hes.exists_use hbs.2 hx.2 hm hcallee
      exact ⟨u, mem_append_right _ hu, e, mem_cons_of_mem _ he, hstands⟩

end

end RenderMemo
