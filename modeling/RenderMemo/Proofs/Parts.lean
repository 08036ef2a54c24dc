import RenderMemo.Proofs.Plan

open List

namespace RenderMemo

-- What two runs report together.
def Report.add (r s : Report) : Report where
  renderFunctions    := r.renderFunctions + s.renderFunctions
  rewrittenFunctions := r.rewrittenFunctions + s.rewrittenFunctions
  bindSites          := r.bindSites + s.bindSites
  hoistedClosures    := r.hoistedClosures + s.hoistedClosures
  importInserted     := r.importInserted || s.importInserted

-- A listed function, once that many items are put in front of its own.
def RenderFunction.shift (k : Nat) (f : RenderFunction) : RenderFunction :=
  { f with insertionPoint := f.insertionPoint + k }

theorem Node.asRenderFunction?_add (n : Node) (i k : Nat) :
    n.asRenderFunction? (i + k) = (n.asRenderFunction? i).map (·.shift k) := by
  rw [asRenderFunction?, asRenderFunction?, Option.map_map]
  rfl

theorem Node.renderFunctions_add (n : Node) (i k : Nat) :
    n.renderFunctions (i + k) = (n.renderFunctions i).map (·.shift k) := by
  simp only [renderFunctions_eq_filterMap, map_filterMap, asRenderFunction?_add]

-- Two bindings that differ in names only.
structure Binding.Akin (b₁ b₂ : Binding) : Prop where
  span      : b₁.span = b₂.span
  bindSites : b₁.bindSites = b₂.bindSites
  closures  : b₁.hoisted.map (fun h => (h.captured, h.arrow)) = b₂.hoisted.map fun h => (h.captured, h.arrow)

namespace Binding.BelongsTo

variable {dedupe : Bool} {b b₁ b₂ : Binding} {n : Node}

theorem map_closures (h : b.BelongsTo dedupe n) :
    b.hoisted.map (fun h => (h.captured, h.arrow)) = n.ownClosures.map fun a =>
      (if dedupe then firstOccurrences a.captured else a.captured, a) := by
  rw [Node.ownClosures, ← h.closures, map_map]
  exact map_congr_left fun g hg => by rw [h.captured g hg, Function.comp_apply]

theorem akin (h₁ : b₁.BelongsTo dedupe n) (h₂ : b₂.BelongsTo dedupe n) : b₁.Akin b₂ where
  span      := h₁.span.trans h₂.span.symm
  bindSites := h₁.sites.trans h₂.sites.symm
  closures  := h₁.map_closures.trans h₂.map_closures.symm

end Binding.BelongsTo

namespace Program

variable {p q : Program} {c : Config}

-- A program with the items of another one behind its own.
def append (p q : Program) : Program := { p with body := p.body ++ q.body }

theorem plan_append (p q : Program) : (p.append q).plan = p.plan ++ q.plan :=
  flatMap_append

theorem bindings_append (p q : Program) (dedupe : Bool) :
    Forall₂ Binding.Akin ((p.append q).bindings dedupe) (p.bindings dedupe ++ q.bindings dedupe) := by
  have hall := (p.append q).belongsTo_plan dedupe
  have hparts := rel_append (p.belongsTo_plan dedupe) (q.belongsTo_plan dedupe)
  rw [plan_append] at hall
  exact forall₂_comp (fun _ _ _ h₁ h₂ => h₁.akin h₂) hall hparts.flip

-- What a run does not find, and what it finds besides, depends on the items and the plan only.
theorem detected_append :
    ((p.append q).memoize c).report.renderFunctions =
      (p.memoize c).report.renderFunctions + (q.memoize c).report.renderFunctions := by
  have hall := renderFunctions_account (p := p.append q) (c := c)
  have hp := renderFunctions_account (p := p) (c := c)
  have hq := renderFunctions_account (p := q) (c := c)
  have heclipsed : (p.append q).eclipsed = p.eclipsed ++ q.eclipsed := flatMap_append
  have hlisted : total Node.renderCount (p.append q).body =
      total Node.renderCount p.body + total Node.renderCount q.body := total_append ..
  rw [length_renderNodesWithBody, length_revealed] at hall hp hq
  rw [heclipsed, hlisted, plan_append, flatMap_append, countP_append, length_append] at hall
  omega

theorem report_append (p q : Program) (c : Config) :
    ((p.append q).memoize c).report = (p.memoize c).report.add (q.memoize c).report := by
  have hrewritten : ((p.append q).memoize c).report.rewrittenFunctions =
      (p.memoize c).report.rewrittenFunctions + (q.memoize c).report.rewrittenFunctions := by
    rw [rewrittenFunctions_eq, rewrittenFunctions_eq, rewrittenFunctions_eq, plan_append, length_append]
  have hsites : ((p.append q).memoize c).report.bindSites =
      (p.memoize c).report.bindSites + (q.memoize c).report.bindSites := by
    rw [bindSites_eq, bindSites_eq, bindSites_eq, plan_append, total_append]
  have hhoisted : ((p.append q).memoize c).report.hoistedClosures =
      (p.memoize c).report.hoistedClosures + (q.memoize c).report.hoistedClosures := by
    rw [hoistedClosures_eq, hoistedClosures_eq, hoistedClosures_eq, plan_append, total_append]
  have himport : ((p.append q).memoize c).report.importInserted =
      ((p.memoize c).report.importInserted || (q.memoize c).report.importInserted) := by
    rw [importInserted_eq, importInserted_eq, importInserted_eq, hrewritten, ← Bool.decide_or]
    exact decide_eq_decide.mpr Nat.add_pos_iff_pos_or_pos
  rw [Report.add, ← detected_append, ← hrewritten, ← hsites, ← hhoisted, ← himport]

theorem renderFunctions_append (p q : Program) :
    (p.append q).renderFunctions = p.renderFunctions ++ q.renderFunctions.map (·.shift p.body.length) := by
  have hlisted (r : Program) : r.renderFunctions = r.body.zipIdx.flatMap fun x => x.1.renderFunctions x.2 := rfl
  have hrest : (q.body.zipIdx p.body.length).flatMap (fun x => x.1.renderFunctions x.2) =
      q.renderFunctions.map (·.shift p.body.length) := by
    rw [zipIdx_eq_map_add, flatMap_map, hlisted, map_flatMap]
    exact flatMap_congr fun x _ => by rw [← Node.renderFunctions_add, Nat.add_comm]
  rw [hlisted, hlisted, append, zipIdx_append, flatMap_append, Nat.zero_add, hrest]

-- A run on a single item of a program.
def alone (p : Program) (item : Node) : Program := { p with body := [item] }

theorem report_eq_foldr (p : Program) (c : Config) :
    (p.memoize c).report = (p.body.map fun item => ((p.alone item).memoize c).report).foldr Report.add {} := by
  have hitems (items : List Node) : (({ p with body := items } : Program).memoize c).report =
      (items.map fun item => ((p.alone item).memoize c).report).foldr Report.add {} := by
    induction items
    case nil => rfl
    case cons item items hi =>
      rw [map_cons, foldr_cons, ← hi]
      exact report_append (p.alone item) { p with body := items } c
  exact hitems p.body

-- That the items of a program are processed each on its own, whatever stands beside them.
structure Divisible (p q : Program) (c : Config) : Prop where
  report : ((p.append q).memoize c).report = (p.memoize c).report.add (q.memoize c).report
  -- Names apart, the same binders are given to the same functions.
  bindings :
    Forall₂ Binding.Akin ((p.append q).bindings c.dedupeCaptures)
      (p.bindings c.dedupeCaptures ++ q.bindings c.dedupeCaptures)
  -- The functions are listed as before, each with the index of its own item.
  listed : (p.append q).renderFunctions = p.renderFunctions ++ q.renderFunctions.map (·.shift p.body.length)
  -- A report adds up what there is to be reported of the single items.
  itemwise :
    (p.memoize c).report = (p.body.map fun item => ((p.alone item).memoize c).report).foldr Report.add {}

-- Two programs can be processed one by one.
theorem divisible (p q : Program) (c : Config) : p.Divisible q c where
  report   := report_append p q c
  bindings := bindings_append p q _
  listed   := renderFunctions_append p q
  itemwise := p.report_eq_foldr c

end Program

end RenderMemo
