import RenderMemo.Proofs.CallSites
import RenderMemo.Proofs.Progress

open List

namespace RenderMemo

namespace Progress

variable {dedupe : Bool} {s t : Progress}

-- That a run has given account of the binders that it has put out so far.
structure Told (s : Progress) : Prop where
  log       : s.log = (Emitted.bindings s.items).map Binding.logEntry
  rewritten : s.report.rewrittenFunctions = (Emitted.bindings s.items).length
  bindSites : s.report.bindSites = total Binding.bindSites (Emitted.bindings s.items)
  hoisted   : s.report.hoistedClosures = total (fun b => b.hoisted.length) (Emitted.bindings s.items)
  -- No item that is still to be put out is a binder.
  opened    : ∀ o ∈ s.opened, o.last.binding? = none

namespace Told

theorem start (p : Program) : p.start.Told where
  log       := rfl
  rewritten := rfl
  bindSites := rfl
  hoisted   := rfl
  opened    := nofun

-- The account does not depend on what is ahead, nor on what is still to be put in front of an open item.

theorem ahead (hs : s.Told) (ns : List Node) : Told { s with ahead := ns } :=
  { hs with }

theorem drop {next : Pending} {ps : List Pending} {last : Emitted} {os : List Opened} (hs : s.Told)
    (heq : s.opened = ⟨next :: ps, last⟩ :: os) : Told { s with opened := ⟨ps, last⟩ :: os } := by
  have hopened := hs.opened
  rw [heq, forall_mem_cons] at hopened
  exact { hs with opened := forall_mem_cons.mpr hopened }

theorem enter {emit : Node → Emitted} {item : Node} (hs : s.Told) (hemit : ∀ n, (emit n).binding? = none) :
    (s.enter dedupe emit item).Told where
  log       := hs.log
  rewritten := hs.rewritten
  bindSites := hs.bindSites
  hoisted   := hs.hoisted
  opened    := forall_mem_cons.mpr ⟨hemit _, hs.opened⟩

-- A message and the numbers of a binder are added with the binder.
theorem bind {b : Binding} (hs : s.Told) : (s.bind b).Told := by
  have hbindings : Emitted.bindings (s.bind b).items = Emitted.bindings s.items ++ [b] :=
    Emitted.bindings_append ..
  constructor
  case log       => rw [hbindings, map_append, ← hs.log]; rfl
  case rewritten => rw [hbindings, length_append, ← hs.rewritten]; rfl
  case bindSites => rw [hbindings, total_append, ← hs.bindSites]; rfl
  case hoisted   => rw [hbindings, total_append, ← hs.hoisted]; rfl
  case opened    => exact hs.opened

theorem put {x : Emitted} (hs : s.Told) (hx : x.binding? = none) : (s.put x).Told := by
  have hbindings : Emitted.bindings (s.put x).items = Emitted.bindings s.items := by
    rw [Progress.put, Emitted.bindings_append, Emitted.bindings, Emitted.bindings, filterMap_cons_none hx]
    exact append_nil _
  constructor
  case log       => exact hbindings ▸ hs.log
  case rewritten => exact hbindings ▸ hs.rewritten
  case bindSites => exact hbindings ▸ hs.bindSites
  case hoisted   => exact hbindings ▸ hs.hoisted
  case opened    => exact hs.opened

theorem close {last : Emitted} {os : List Opened} (hs : s.Told) (heq : s.opened = ⟨[], last⟩ :: os) :
    ({ s with opened := os }.put last).Told := by
  have hopened := hs.opened
  rw [heq, forall_mem_cons] at hopened
  have hrest : Told { s with opened := os } := { hs with opened := hopened.2 }
  exact hrest.put hopened.1

end Told

theorem Step.preserves_told (h : Step dedupe s t) (hs : s.Told) : t.Told := by
  cases h with
  | item _ _    => exact (hs.ahead _).enter fun _ => rfl
  | binder heq  => exact (hs.drop heq).bind
  | closure heq => exact (hs.drop heq).enter fun _ => rfl
  | close heq   => exact hs.close heq

theorem Steps.preserves_told (h : Steps dedupe s t) : s.Told → t.Told :=
  h.preserves Step.preserves_told

end Progress

-- The message about a binder, from the function that it was made for.
def Node.logEntry (binder : String) (f : Node) : LogEntry where
  level := .debug
  place := some f.span
  text  := "render function bound through " ++ binder ++ " (" ++ toString f.ownBindCalls ++
    " bind calls, " ++ toString f.ownClosures.length ++ " hoisted closures)"

-- The name of the binder that an item of a result declares, if it declares one. Only the declarations of
-- binders mention the memoize function, apart from the item that brings it into scope.
def Node.binder? (memoize : String) (n : Node) : Option String :=
  if n.mentions.contains memoize then n.introduced?.filter (· != memoize) else none

namespace Program

open Progress

variable {p : Program} {c : Config}

-- The binders that are declared in a result, in the order of their declarations.
def binders (p : Program) (c : Config) : List String :=
  (p.memoize c).program.body.filterMap (Node.binder? (p.expansion c.dedupeCaptures).1)

theorem binder?_nodeOf {y : Emitted} (hy : y ∈ (p.expansion c.dedupeCaptures).2.items) :
    (p.nodeOf c y).binder? (p.expansion c.dedupeCaptures).1 = y.binding?.map Binding.binder := by
  rw [Node.binder?, contains_memoize_nodeOf hy]
  cases y
  case binder b =>
    have hx : b.binder ∈ (Emitted.binder b).introduces := mem_cons_self
    have hne : b.binder ≠ (p.expansion c.dedupeCaptures).1 :=
      fun heq => not_mem_introduces_of_memoize hy (heq ▸ hx)
    rw [introduced?_nodeOf hy hx]
    simp [Emitted.binding?, hne]
  case closure => rfl
  case own     => rfl

theorem binder?_import {d : Node} (hd : d ∈ p.imports c) : d.binder? (p.expansion c.dedupeCaptures).1 = none := by
  rw [eq_of_mem_imports hd, Node.binder?, introduced?_memoizeImport]
  simp

theorem binders_eq : p.binders c = (p.bindings c.dedupeCaptures).map Binding.binder := by
  have himports : (p.imports c).filterMap (Node.binder? (p.expansion c.dedupeCaptures).1) = [] :=
    filterMap_eq_nil_iff.mpr fun _ => binder?_import
  rw [binders, memoize_body_eq, filterMap_append, himports, nil_append, filterMap_map, bindings,
    Expansion.bindings, map_filterMap]
  exact filterMap_congr fun y hy => binder?_nodeOf hy

theorem entries_eq :
    (p.bindings c.dedupeCaptures).map Binding.logEntry = zipWith Node.logEntry (p.binders c) p.plan := by
  have hall := p.belongsTo_plan c.dedupeCaptures
  rw [binders_eq]
  generalize p.bindings c.dedupeCaptures = bs, p.plan = fs at hall
  induction hall
  case nil => rfl
  case cons b f bs fs hb _ hi =>
    rw [map_cons, map_cons, zipWith_cons_cons, hi, Binding.logEntry, Node.logEntry, hb.span, hb.bindSites_eq,
      hb.length_hoisted]

-- What the declarations of binders look like.
theorem filter_binder? :
    ((p.memoize c).program.body.filter fun n => (n.binder? (p.expansion c.dedupeCaptures).1).isSome) =
      (p.binders c).map fun x => binderDeclaration x (p.expansion c.dedupeCaptures).1 c.cacheSize := by
  have himports : ((p.imports c).filter fun n => (n.binder? (p.expansion c.dedupeCaptures).1).isSome) = [] := by
    refine filter_eq_nil_iff.mpr fun d hd => ?_
    rw [binder?_import hd]
    exact Bool.false_ne_true
  have hitems : (((p.expansion c.dedupeCaptures).2.items.map (p.nodeOf c)).filter fun n =>
      (n.binder? (p.expansion c.dedupeCaptures).1).isSome) =
        ((p.expansion c.dedupeCaptures).2.items.map (p.nodeOf c)).filter
          (·.mentions.contains (p.expansion c.dedupeCaptures).1) := by
    refine filter_congr <| forall_mem_map.mpr fun y hy => ?_
    rw [binder?_nodeOf hy, contains_memoize_nodeOf hy, Option.isSome_map]
  rw [memoize_body_eq, filter_append, himports, nil_append]
  exact hitems.trans <| filter_contains_memoize.trans <| by rw [binders_eq, map_map]; rfl

-- What goes through a binder in a result is what was in the body of a function.
structure Serves (p : Program) (c : Config) (x : String) (f : Node) : Prop where
  -- The binder is referred to once for every bind call, and once for every closure.
  calls : (p.memoize c).program.Provides x (f.ownBindCalls + f.ownClosures.length)
  -- Each closure is called through the binder, and one item declares it.
  closures :
    ∃ hs : List Hoisted, hs.map Hoisted.arrow = f.ownClosures ∧ (hs.map Hoisted.name).Nodup ∧
      ∀ h ∈ hs, (∃ n ∈ (p.memoize c).program.body, h.call x ∈ n.subtrees) ∧
        ∃ d, (p.memoize c).program.body.filter (·.introduced? == some h.name) = [d] ∧
          h.DeclaredAs (p.bindings c.dedupeCaptures) d

theorem serves_of_belongsTo {b : Binding} {f : Node} (hb : b ∈ p.bindings c.dedupeCaptures)
    (hbelongs : b.BelongsTo c.dedupeCaptures f) : p.Serves c b.binder f where
  calls    := by
    have hprovides := provides_of_mem_binding hb mem_cons_self
    rwa [Binding.count_binder_uses (nodup_binding hb), hbelongs.bindSites_eq, hbelongs.length_hoisted] at hprovides
  closures := by
    refine ⟨b.hoisted, hbelongs.closures, (nodup_cons.mp (nodup_binding hb)).2, fun h hh => ?_⟩
    have ⟨n, hn, m, hm, _, _, hstands⟩ := exists_stands hb <| mem_append_right _ (mem_map_of_mem hh)
    cases hstands with
    | closure => exact ⟨⟨n, hn, hm⟩, (exists_declaredAs hb hh).2⟩

theorem forall₂_serves (p : Program) (c : Config) : Forall₂ (p.Serves c) (p.binders c) p.plan := by
  have hall := (forall₂_and_left _ _).mpr ⟨fun b hb => hb, p.belongsTo_plan c.dedupeCaptures⟩
  rw [binders_eq, forall₂_map_left_iff]
  exact hall.imp fun b f h => serves_of_belongsTo h.1 h.2

theorem countP_warn :
    (p.memoize c).log.countP (·.level = .warn) =
      if p.kind = .script ∧ c.importStyle = .esModule ∧ 0 < (p.memoize c).report.rewrittenFunctions then 1
      else 0 := by
  have hentries (bs : List Binding) : (bs.map Binding.logEntry).countP (·.level = .warn) = 0 := by
    rw [countP_map, countP_eq_zero]
    exact fun _ _ => Bool.false_ne_true
  rw [log_eq, countP_append, countP_append, hentries, warnings]
  split <;> rfl

-- That the log of a run is a trace of it.
structure Traced (p : Program) (c : Config) : Prop where
  -- However far a run has come, its log tells of the binders that it has put out, and its report adds them up.
  along : ∀ s, Steps c.dedupeCaptures p.start s → s.Told
  ends : Steps c.dedupeCaptures p.start (p.finish c.dedupeCaptures)
  result : p.EndsAs c (p.finish c.dedupeCaptures)
  -- In the end, there is a message for every binder that is declared, in the order of the declarations,
  log :
    (p.memoize c).log =
      zipWith Node.logEntry (p.binders c) p.plan ++ p.warnings c ++ [.debug (p.memoize c).report.text]
  declarations :
    ((p.memoize c).program.body.filter fun n => (n.binder? (p.expansion c.dedupeCaptures).1).isSome) =
      (p.binders c).map fun x => binderDeclaration x (p.expansion c.dedupeCaptures).1 c.cacheSize
  -- about the function that the binder serves.
  serves : Forall₂ (p.Serves c) (p.binders c) p.plan
  functions : ∀ f ∈ p.plan, f.isRenderWithBody = true
  -- A warning is given where a script has to do without an import declaration.
  warnings :
    (p.memoize c).log.countP (·.level = .warn) =
      if p.kind = .script ∧ c.importStyle = .esModule ∧ 0 < (p.memoize c).report.rewrittenFunctions then 1
      else 0
  -- The numbers in the messages add up to those of the report.
  bindSites : (p.memoize c).report.bindSites = total Node.ownBindCalls p.plan
  hoisted : (p.memoize c).report.hoistedClosures = total (fun f => f.ownClosures.length) p.plan

theorem traced (p : Program) (c : Config) : p.Traced c where
  along        := fun _ h => h.preserves_told (.start p)
  ends         := p.steps_finish _
  result       := p.endsAs_finish c
  log          := by rw [log_eq, entries_eq]
  declarations := filter_binder?
  serves       := p.forall₂_serves c
  functions    := fun f hf => by
    obtain ⟨item, _, hf⟩ := mem_flatMap.mp hf
    exact (Node.render_of_mem_plan item hf).1
  warnings     := countP_warn
  bindSites    := bindSites_eq
  hoisted      := hoistedClosures_eq

end Program

end RenderMemo
