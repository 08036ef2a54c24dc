import RenderMemo.Proofs.Layout
import RenderMemo.Proofs.Mentions

open List

namespace RenderMemo

-- Everything that a use names is declared by one of the given items.
def Use.Ready (done : List Emitted) : Use → Prop
  | bindCall b  => .binder b ∈ done
  | closure b h => .binder b ∈ done ∧ ∃ d, .closure h d ∈ done

theorem Use.Ready.of_mem_uses {done : List Emitted} {b : Binding} {u : Use} (hu : u ∈ b.uses)
    (hb : .binder b ∈ done) (hh : ∀ h ∈ b.hoisted, ∃ d, .closure h d ∈ done) : u.Ready done := by
  simp only [Binding.uses, mem_append, mem_replicate, mem_map] at hu
  cases hu
  case inl hu => exact hu.2 ▸ hb
  case inr hu =>
    obtain ⟨h, hmem, heq⟩ := hu
    exact heq ▸ ⟨hb, hh h hmem⟩

theorem Use.Ready.mono {done done' : List Emitted} {u : Use} (h : u.Ready done) (hsub : done ⊆ done') :
    u.Ready done' := by
  cases u
  case bindCall => exact hsub h
  case closure =>
    have ⟨hb, d, hd⟩ := h
    exact ⟨hsub hb, d, hsub hd⟩

theorem Use.Ready.binding_mem {done : List Emitted} {u : Use} (h : u.Ready done) :
    u.binding ∈ Emitted.bindings done := by
  have hmem {b : Binding} (hb : .binder b ∈ done) : b ∈ Emitted.bindings done :=
    mem_filterMap.mpr ⟨_, hb, rfl⟩
  cases u
  case bindCall => exact hmem h
  case closure  => exact hmem h.1

theorem Use.Ready.names_subset {done : List Emitted} {u : Use} (h : u.Ready done) :
    u.names ⊆ done.flatMap Emitted.introduces := by
  have hbinder {b : Binding} (hb : .binder b ∈ done) : b.binder ∈ done.flatMap Emitted.introduces :=
    mem_flatMap.mpr ⟨_, hb, mem_cons_self⟩
  cases u
  case bindCall b => exact cons_subset.mpr ⟨hbinder h, nil_subset _⟩
  case closure b g =>
    have ⟨hb, d, hg⟩ := h
    have hclosure : g.name ∈ done.flatMap Emitted.introduces := mem_flatMap.mpr ⟨_, hg, mem_cons_self⟩
    exact cons_subset.mpr ⟨hbinder hb, cons_subset.mpr ⟨hclosure, nil_subset _⟩⟩

namespace Emitted

-- The uses that come due with an item.
def opens : Emitted → List Use
  | binder b => b.uses
  | _ => []

theorem flatMap_opens (xs : List Emitted) : xs.flatMap opens = (bindings xs).flatMap Binding.uses := by
  induction xs
  case nil => rfl
  case cons x xs hi =>
    cases x <;> exact congrArg _ hi

-- The uses that are made in an item, if the items that were not made are among the given ones.
inductive Makes (items : List Node) : Emitted → List Use → Prop
  | binder {b : Binding} : Makes items (.binder b) []
  | closure {h : Hoisted} {d : Node} {us : List Use} :
      RewritesBy us h.declaration d → Makes items (.closure h d) us
  | own {item n : Node} {us : List Use} : item ∈ items → RewritesBy us item n → Makes items (.own n) us

end Emitted

-- The items of a result in their order, behind some that are done, with the uses that are due. A use
-- comes due with its binder, it is made behind everything that it names, and in the end none is due.
inductive Scheduled (items : List Node) : List Emitted → List Use → List Emitted → Prop
  | nil {done : List Emitted} : Scheduled items done [] []
  | cons {done xs : List Emitted} {due due' us : List Use} {x : Emitted} :
      x.Makes items us → (∀ u ∈ us, u.Ready done) → due ~ us ++ due' →
      Scheduled items (x :: done) (x.opens ++ due') xs → Scheduled items done due (x :: xs)

-- What is expanded is in order. The uses of a binder are due as long as its closures are expanded, so
-- they are carried through the induction with the items that are done.
mutual

theorem Expands.scheduled {dedupe : Bool} {items : List Node} {emit : Node → Emitted} {n : Node}
    {xs ys done : List Emitted} {due : List Use}
    (hopens : ∀ n', (emit n').opens = [])
    (hmakes : ∀ us n', RewritesBy us n n' → (emit n').Makes items us) :
    Expands dedupe emit n xs →
    (∀ done' n', done ⊆ done' → emit n' ∈ done' → Scheduled items done' due ys) →
      Scheduled items done due (xs ++ ys)
  | .item _ hbindings hrewrites hp, hys => by
    rw [append_assoc, singleton_append]
    refine hbindings.scheduled fun done' due' hdone hbs hdue => ?_
    refine .cons (hmakes _ _ hrewrites) (fun u hu => ?_) (hdue.trans <| hp.symm.append_right _) ?_
    · have ⟨b, hb, hu⟩ := mem_flatMap.mp (hp.mem_iff.mp hu)
      have ⟨hbinder, hclosures⟩ := hbs b hb
      exact .of_mem_uses hu hbinder hclosures
    · rw [hopens, nil_append]
      exact hys _ _ (subset_cons_of_subset _ hdone) mem_cons_self

theorem ExpandsBindings.scheduled {dedupe : Bool} {items : List Node} {bs : List Binding}
    {xs ys done : List Emitted} {due : List Use} :
    ExpandsBindings dedupe bs xs →
    (∀ done' due', done ⊆ done' →
      (∀ b ∈ bs, .binder b ∈ done' ∧ ∀ h ∈ b.hoisted, ∃ d, .closure h d ∈ done') →
      due' ~ bs.flatMap Binding.uses ++ due → Scheduled items done' due' ys) →
      Scheduled items done due (xs ++ ys)
  | .nil, hys => hys done due (Subset.refl _) (by simp) (.refl _)
  | .cons hclosures hbindings, hys => by
    rw [cons_append, cons_append, append_assoc]
    refine .cons .binder (by simp) (.refl _) ?_
    refine hclosures.scheduled fun done₁ hdone₁ hh => ?_
    refine hbindings.scheduled fun done₂ due₂ hdone₂ hbs hdue => ?_
    have ⟨hb, hdone₁⟩ := cons_subset.mp hdone₁
    refine hys done₂ due₂ (List.Subset.trans hdone₁ hdone₂) (forall_mem_cons.mpr ⟨⟨hdone₂ hb, ?_⟩, hbs⟩) ?_
    · intro h hmem
      have ⟨d, hd⟩ := hh h hmem
      exact ⟨d, hdone₂ hd⟩
    · rw [flatMap_cons, append_assoc]
      exact hdue.trans <| perm_append_comm_assoc ..

theorem ExpandsClosures.scheduled {dedupe : Bool} {items : List Node} {hs : List Hoisted}
    {xs ys done : List Emitted} {due : List Use} :
    ExpandsClosures dedupe hs xs →
    (∀ done', done ⊆ done' → (∀ h ∈ hs, ∃ d, .closure h d ∈ done') → Scheduled items done' due ys) →
      Scheduled items done due (xs ++ ys)
  | .nil, hys => hys done (Subset.refl _) (by simp)
  | .cons hclosure hclosures, hys => by
    rw [append_assoc]
    refine hclosure.scheduled (fun _ => rfl) (fun _ _ => .closure) fun done₁ d hdone₁ hd => ?_
    refine hclosures.scheduled fun done₂ hdone₂ hhs => ?_
    exact hys done₂ (List.Subset.trans hdone₁ hdone₂) (forall_mem_cons.mpr ⟨⟨d, hdone₂ hd⟩, hhs⟩)

end

theorem scheduled_of_expands {dedupe : Bool} {items body : List Node} {groups : List (List Emitted)}
    {done : List Emitted} (h : Forall₂ (Expands dedupe .own) items groups) (hitems : items ⊆ body) :
    Scheduled body done [] groups.flatten := by
  induction h generalizing done
  case nil => exact .nil
  case cons item xs items groups hitem _ hi =>
    have ⟨hbody, hitems⟩ := cons_subset.mp hitems
    exact hitem.scheduled (fun _ => rfl) (fun _ _ => .own hbody) fun _ _ _ _ => hi hitems

-- The items of a result are in order.
theorem Program.scheduled (p : Program) (dedupe : Bool) :
    Scheduled p.body [] [] (p.expansion dedupe).2.items := by
  have ⟨groups, hgroups, hitems⟩ := p.exists_groups dedupe
  exact hitems ▸ scheduled_of_expands hgroups (Subset.refl _)

namespace Scheduled

variable {items : List Node} {done front xs : List Emitted} {due : List Use} {u : Use} {x : Emitted}

-- What is used in an item is declared in front of it.
theorem exists_makes (h : Scheduled items done due (front ++ x :: xs)) :
    ∃ us, x.Makes items us ∧ ∀ u ∈ us, u.Ready (front.reverse ++ done) := by
  induction front generalizing done due
  case nil =>
    cases h with
    | cons hmakes hready _ _ => exact ⟨_, hmakes, hready⟩
  case cons y front hi =>
    cases h with
    | cons _ _ _ h =>
      rw [reverse_cons, append_assoc, singleton_append]
      exact hi h

-- Everything that is due, or comes due, is made in one of the items.
theorem exists_made (h : Scheduled items done due xs) (hu : u ∈ due ++ xs.flatMap Emitted.opens) :
    ∃ x ∈ xs, ∃ us, x.Makes items us ∧ u ∈ us ∧ ∀ v ∈ us, v.Ready (done ++ xs) := by
  induction h
  case nil => simp at hu
  case cons done xs due due' us y hmakes hready hdue _ hi =>
    rw [flatMap_cons, mem_append, mem_append, hdue.mem_iff, mem_append, or_assoc] at hu
    cases hu
    case inl hu =>
      exact ⟨y, mem_cons_self, us, hmakes, hu, fun v hv => (hready v hv).mono <| subset_append_left ..⟩
    case inr hu =>
      have ⟨x, hx, vs, hmade, hu, hready⟩ := hi <| by
        rw [mem_append, mem_append]
        exact or_assoc.mpr <| or_left_comm.mp hu
      refine ⟨x, mem_cons_of_mem _ hx, vs, hmade, hu, fun v hv => (hready v hv).mono ?_⟩
      exact perm_middle.symm.subset

end Scheduled

end RenderMemo
