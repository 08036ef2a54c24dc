import Mathlib.Logic.Relation
import RenderMemo.Proofs.Parts

open List Relation

namespace RenderMemo

namespace Report

theorem add_zero (r : Report) : r.add {} = r := by
  rw [add, Bool.or_false]
  rfl

theorem zero_add (r : Report) : ({} : Report).add r = r := by
  simp [add]

theorem add_assoc (r s t : Report) : (r.add s).add t = r.add (s.add t) := by
  simp only [add, Nat.add_assoc, Bool.or_assoc]

end Report

-- What a binding adds to a report.
def Binding.report (b : Binding) : Report where
  rewrittenFunctions := 1
  bindSites          := b.bindSites
  hoistedClosures    := b.hoisted.length
  importInserted     := true

namespace Expansion

-- An expansion, followed by one that starts with the names that it leaves.
def append (e₁ e₂ : Expansion) : Expansion := ⟨e₁.items ++ e₂.items, e₁.detected + e₂.detected, e₂.names⟩

theorem bindings_append (e₁ e₂ : Expansion) : (e₁.append e₂).bindings = e₁.bindings ++ e₂.bindings :=
  filterMap_append

theorem report_append (e₁ e₂ : Expansion) : (e₁.append e₂).report = e₁.report.add e₂.report := by
  have hempty (bs cs : List Binding) : (!(bs ++ cs).isEmpty) = (!bs.isEmpty || !cs.isEmpty) := by cases bs <;> rfl
  simp only [report, bindings_append, length_append, ← total_eq_foldr, total_append, hempty]
  rfl

theorem report_binder (b : Binding) (e : Expansion) :
    ({ e with items := .binder b :: e.items } : Expansion).report = b.report.add e.report := by
  rw [report, Report.add, Binding.report, Report.mk.injEq]
  exact ⟨(Nat.zero_add _).symm, Nat.add_comm .., rfl, rfl, rfl⟩

section

variable {emit : Node → Emitted} (hemit : ∀ n, (emit n).binding? = none)
include hemit

-- The item behind everything that was put in front of it adds nothing but what the visit found.

theorem bindings_last (front : Expansion) (n : Node) (k : Nat) (names : Names) :
    (⟨front.items ++ [emit n], k, names⟩ : Expansion).bindings = front.bindings :=
  Emitted.bindings_append_last hemit

theorem report_last (front : Expansion) (n : Node) (k : Nat) (names : Names) :
    (⟨front.items ++ [emit n], k + front.detected, names⟩ : Expansion).report =
      ({ renderFunctions := k } : Report).add front.report := by
  rw [report, bindings_last hemit, Report.add, Report.mk.injEq]
  exact ⟨rfl, (Nat.zero_add _).symm, (Nat.zero_add _).symm, (Nat.zero_add _).symm, (Bool.false_or _).symm⟩

end

end Expansion

-- An item that is visited, with what still has to be put in front of it.
structure Opened where
  pending : List Pending
  last    : Emitted

-- How far a run has come. The items that are open stand one inside the other, the innermost one first.
structure Progress where
  opened : List Opened
  ahead  : List Node
  items  : List Emitted
  report : Report
  log    : List LogEntry
  names  : Names

namespace Progress

-- Opens an item inside those that are open.
def inside (o : Opened) (s : Progress) : Progress := { s with opened := o :: s.opened }

-- Takes down what a visit found, and the names that it leaves.
def visited (visit : Visit Node) (s : Progress) : Progress :=
  { s with report := s.report.add { renderFunctions := visit.detected }, names := visit.names }

-- Visits an item and opens it.
def enter (dedupe : Bool) (emit : Node → Emitted) (item : Node) (s : Progress) : Progress :=
  let visit := item.visit dedupe s.names
  (s.visited visit).inside ⟨Pending.ofBindings visit.bindings, emit visit.result⟩

-- Puts out an item.
def put (x : Emitted) (s : Progress) : Progress := { s with items := s.items ++ [x] }

-- Puts out a binder, with a message about it.
def bind (b : Binding) (s : Progress) : Progress :=
  { s.put (.binder b) with report := s.report.add b.report, log := s.log ++ [b.logEntry] }

-- A step of a run. A closure is opened inside the item that it goes in front of, so an item is put out once
-- everything that goes in front of it is.
inductive Step (dedupe : Bool) (s : Progress) : Progress → Prop
  | item {n : Node} {ns : List Node} :
      s.opened = [] → s.ahead = n :: ns → Step dedupe s ({ s with ahead := ns }.enter dedupe .own n)
  | binder {b : Binding} {ps : List Pending} {last : Emitted} {os : List Opened} :
      s.opened = ⟨.binder b :: ps, last⟩ :: os → Step dedupe s ({ s with opened := ⟨ps, last⟩ :: os }.bind b)
  | closure {h : Hoisted} {ps : List Pending} {last : Emitted} {os : List Opened} :
      s.opened = ⟨.closure h :: ps, last⟩ :: os →
      Step dedupe s ({ s with opened := ⟨ps, last⟩ :: os }.enter dedupe (.closure h) h.declaration)
  | close {last : Emitted} {os : List Opened} :
      s.opened = ⟨[], last⟩ :: os → Step dedupe s ({ s with opened := os }.put last)

-- Any number of steps.
abbrev Steps (dedupe : Bool) : Progress → Progress → Prop := ReflTransGen (Step dedupe)

theorem Step.deterministic (dedupe : Bool) : Relator.RightUnique (Step dedupe) := by
  intro s s₁ s₂ h₁ h₂
  cases h₁ <;> cases h₂ <;> simp_all

-- What every step preserves is preserved by a run.
theorem Steps.preserves {dedupe : Bool} {I : Progress → Prop} {s t : Progress} (h : Steps dedupe s t)
    (hstep : ∀ {s t}, Step dedupe s t → I s → I t) (hs : I s) : I t := by
  induction h
  case refl       => exact hs
  case tail ht hi => exact hstep ht hi

-- What an expansion puts out and says, on top of what there is already.
def after (s : Progress) (e : Expansion) : Progress :=
  { s with
    items  := s.items ++ e.items
    report := s.report.add e.report
    log    := s.log ++ e.bindings.map Binding.logEntry
    names  := e.names }

variable {dedupe : Bool} {s : Progress}

theorem after_nil (s : Progress) : s.after ⟨[], 0, s.names⟩ = s := by
  have hreport : (Expansion.mk [] 0 s.names).report = {} := rfl
  have hlog : (Expansion.mk [] 0 s.names).bindings.map Binding.logEntry = [] := rfl
  simp only [after, hreport, hlog, Report.add_zero, append_nil]

theorem after_append (s : Progress) (e₁ e₂ : Expansion) : s.after (e₁.append e₂) = (s.after e₁).after e₂ := by
  rw [after, after, after, Expansion.report_append, Expansion.bindings_append, Expansion.append, map_append]
  simp only [append_assoc, Report.add_assoc]

theorem bind_after (s : Progress) (b : Binding) (e : Expansion) :
    (s.bind b).after e = s.after { e with items := .binder b :: e.items } := by
  rw [after, after, Expansion.report_binder, bind, put]
  simp only [append_assoc, Report.add_assoc]
  rfl

-- What an expansion does is what its visit does, then what goes in front of the item, then the item itself.
theorem after_expand (emit : Node → Emitted) (item : Node) (s : Progress)
    (hemit : ∀ n, (emit n).binding? = none) :
    s.after (expand dedupe emit item s.names) =
      let visit := item.visit dedupe s.names
      ((s.visited visit).after (expandPending dedupe (item.pending dedupe s.names) visit.names)).put
        (emit visit.result) := by
  simp only [expand_eq, after, Expansion.bindings_last hemit, Expansion.report_last hemit, visited, put,
    append_assoc, Report.add_assoc]

-- An item that is opened is put out after the steps that its expansion takes. What goes in front of it is done
-- one after the other, each time inside that item and with the names that the others left.
theorem steps_expand (dedupe : Bool) (emit : Node → Emitted) (item : Node) (s : Progress)
    (hemit : ∀ n, (emit n).binding? = none) :
    Steps dedupe (s.enter dedupe emit item) (s.after (expand dedupe emit item s.names)) := by
  generalize hnames : s.names = names
  induction emit, item, names using expand_induction dedupe
    (F := fun ps names => ∀ (s : Progress) last, s.names = names →
      Steps dedupe (s.inside ⟨ps, last⟩) ((s.after (expandPending dedupe ps names)).inside ⟨[], last⟩))
    generalizing s
  case nil names s last hnames =>
    subst hnames
    rw [expandPending, after_nil]
  case binder b ps names hi s last hnames =>
    have hrest := hi (s.bind b) last hnames
    rw [bind_after] at hrest
    exact .head (.binder rfl) hrest
  case closure h ps names hclosure hi s last hnames =>
    have hfirst := hclosure (s.inside ⟨ps, last⟩) (fun _ => rfl) hnames
    have hrest := hi (s.after (expand dedupe (.closure h) h.declaration names)) last rfl
    rw [← after_append] at hrest
    exact .head (.closure rfl) <| hfirst.trans hrest
  case item emit item names hi =>
    subst hnames
    have hfront := hi (s.visited (item.visit dedupe s.names)) (emit (item.visit dedupe s.names).result) rfl
    rw [after_expand emit item s hemit]
    exact .tail hfront (.close rfl)

-- The items of a program are opened one after the other, once no other one is open.
theorem steps_expandItems (dedupe : Bool) (items : List Node) (s : Progress) (hopened : s.opened = [])
    (hahead : s.ahead = items) :
    Steps dedupe s ({ s with ahead := [] }.after (expandItems dedupe items s.names)) := by
  induction items generalizing s
  case nil =>
    rw [expandItems, ← hahead, after_nil]
  case cons item items hi =>
    have hfirst := steps_expand dedupe .own item { s with ahead := items } fun _ => rfl
    have hrest := hi ({ s with ahead := items }.after (expand dedupe .own item s.names)) hopened rfl
    have heq := after_append { s with ahead := [] } (expand dedupe .own item s.names)
      (expandItems dedupe items (expand dedupe .own item s.names).names)
    rw [expandItems]
    exact .head (.item hopened hahead) <| hfirst.trans <| heq ▸ hrest

end Progress

-- The message that the memoize function is not imported by declaration, although the options say so.
def Config.requireWarning (c : Config) : LogEntry :=
  .warn ("scripts cannot use import declarations, loading " ++ c.memoizeModule ++ " with require instead")

namespace Program

open Progress

variable {p : Program} {c : Config} {dedupe : Bool} {s : Progress}

-- A run that has not begun. The name of the memoize function is taken already.
def start (p : Program) : Progress where
  opened := []
  ahead  := p.body
  items  := []
  report := {}
  log    := []
  names  := ((Names.mk (p.idents.map Ident.name)).generate "memoize").2

-- A run that has come to its end.
def finish (p : Program) (dedupe : Bool) : Progress where
  opened := []
  ahead  := []
  items  := (p.expansion dedupe).2.items
  report := (p.expansion dedupe).2.report
  log    := (p.bindings dedupe).map Binding.logEntry
  names  := (p.expansion dedupe).2.names

theorem steps_finish (p : Program) (dedupe : Bool) : Steps dedupe p.start (p.finish dedupe) := by
  have h : Steps dedupe p.start _ := steps_expandItems dedupe p.body p.start rfl rfl
  have hfinish : { p.start with ahead := [] }.after (p.expansion dedupe).2 = p.finish dedupe := by
    rw [Progress.after, finish, start, Report.zero_add]
    rfl
  exact hfinish ▸ h

theorem not_step_finish {t : Progress} : ¬Step dedupe (p.finish dedupe) t := by
  intro h
  cases h with
  | item _ hahead   => nomatch hahead
  | binder hopened  => nomatch hopened
  | closure hopened => nomatch hopened
  | close hopened   => nomatch hopened

-- However far a run has come, it comes to its end from there.
theorem steps_finish_of_steps (h : Steps dedupe p.start s) : Steps dedupe s (p.finish dedupe) := by
  cases ReflTransGen.total_of_right_unique (Step.deterministic dedupe) h (p.steps_finish dedupe)
  case inl h => exact h
  case inr h =>
    cases h.cases_head
    case inl heq => exact heq ▸ .refl
    case inr h   =>
      have ⟨_, hstep, _⟩ := h
      exact absurd hstep not_step_finish

-- No run goes on for ever.
theorem acc_of_steps_finish (h : Steps dedupe s (p.finish dedupe)) : Acc (flip (Step dedupe)) s := by
  induction h using ReflTransGen.head_induction_on
  case refl => exact ⟨_, fun t ht => absurd ht not_step_finish⟩
  case head s t hstep _ hi =>
    exact ⟨_, fun t' ht' => Step.deterministic dedupe hstep ht' ▸ hi⟩

-- The messages of a run about the item that brings the memoize function into scope.
def warnings (p : Program) (c : Config) : List LogEntry :=
  if p.kind = .script ∧ c.importStyle = .esModule ∧ 0 < (p.memoize c).report.rewrittenFunctions then
    [c.requireWarning]
  else []

theorem log_eq :
    (p.memoize c).log = (p.bindings c.dedupeCaptures).map Binding.logEntry ++ p.warnings c ++
      [.debug (p.memoize c).report.text] := by
  have hwarn : p.warnings c =
      if (p.memoize c).report.importInserted && requireInstead p.kind c.importStyle then
        [c.requireWarning]
      else [] := by
    simp only [warnings, importInserted_eq, requireInstead, Bool.and_eq_true, beq_iff_eq, decide_eq_true_eq,
      and_comm, and_assoc, and_left_comm]
  rw [hwarn]
  rfl

-- What is made of a run that has come to its end.
structure EndsAs (p : Program) (c : Config) (s : Progress) : Prop where
  report : (p.memoize c).report = s.report
  body   : (p.memoize c).program.body = p.imports c ++ s.items.map (p.nodeOf c)
  log    : (p.memoize c).log = s.log ++ p.warnings c ++ [.debug s.report.text]

theorem endsAs_finish (p : Program) (c : Config) : p.EndsAs c (p.finish c.dedupeCaptures) where
  report := rfl
  body   := memoize_body_eq
  log    := log_eq

end Program

end RenderMemo
