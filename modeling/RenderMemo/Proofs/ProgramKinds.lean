import RenderMemo.Proofs.Progress

open List

namespace RenderMemo

namespace Program

open Progress

variable {p : Program} {c : Config}

-- The same items, as a program of a kind.
def as (p : Program) (kind : ProgramKind) : Program := { p with kind }

section

variable (kind : ProgramKind)

-- The kind of a program matters in front of the other items,
theorem body_as :
    ((p.as kind).memoize c).program.body =
      (if 0 < (p.memoize c).report.rewrittenFunctions then
        [memoizeImport kind c (p.expansion c.dedupeCaptures).1]
      else []) ++ p.resultItems c := by
  rw [memoize_body_eq, imports_eq]
  rfl

-- and behind the messages about binders.
theorem log_as :
    ((p.as kind).memoize c).log =
      (p.bindings c.dedupeCaptures).map Binding.logEntry ++
        (if kind = .script ∧ c.importStyle = .esModule ∧ 0 < (p.memoize c).report.rewrittenFunctions then
          [c.requireWarning]
        else []) ++ [.debug (p.memoize c).report.text] :=
  log_eq

end

theorem memoizeImport_of_ne {kind : ProgramKind} {x : String} (h : c.importStyle ≠ .esModule) :
    memoizeImport kind c x = requireDeclaration x c.memoizeModule := by
  unfold memoizeImport
  split
  case h_1 heq => exact absurd heq h
  case h_2     => rfl

-- Without an import declaration, there is no difference.
theorem memoize_as_eq
    (h : ¬(c.importStyle = .esModule ∧ 0 < (p.memoize c).report.rewrittenFunctions)) :
    ((p.as .module).memoize c).program.body = ((p.as .script).memoize c).program.body ∧
      ((p.as .module).memoize c).log = ((p.as .script).memoize c).log := by
  constructor
  case left =>
    rw [body_as, body_as]
    split
    case isTrue hrewritten =>
      have hstyle := fun hstyle => h ⟨hstyle, hrewritten⟩
      rw [memoizeImport_of_ne hstyle, memoizeImport_of_ne hstyle]
    case isFalse => rfl
  case right =>
    rw [log_as, log_as, if_neg fun hwarn => h hwarn.2, if_neg fun hwarn => h hwarn.2]

-- Where modules and scripts differ once something was rewritten: a module imports the memoize function by
-- declaration, while a script has to load it otherwise and says so.
structure Diverges (p : Program) (c : Config) : Prop where
  body :
    ∃ rest,
      ((p.as .module).memoize c).program.body =
        .defaultImport (p.expansion c.dedupeCaptures).1 c.memoizeModule :: rest ∧
      ((p.as .script).memoize c).program.body =
        requireDeclaration (p.expansion c.dedupeCaptures).1 c.memoizeModule :: rest
  log :
    ∃ entries last, (∀ e ∈ entries ++ [last], e.level = .debug) ∧
      ((p.as .module).memoize c).log = entries ++ [last] ∧
      ((p.as .script).memoize c).log = entries ++ [c.requireWarning, last]

theorem diverges (hstyle : c.importStyle = .esModule) (hrewritten : 0 < (p.memoize c).report.rewrittenFunctions) :
    p.Diverges c where
  body := by
    have hbody (kind : ProgramKind) : ((p.as kind).memoize c).program.body =
        memoizeImport kind c (p.expansion c.dedupeCaptures).1 :: p.resultItems c := by
      rw [body_as, if_pos hrewritten]
      rfl
    have himport (x : String) : memoizeImport .module c x = .defaultImport x c.memoizeModule := by
      simp [memoizeImport, hstyle]
    exact ⟨_, himport _ ▸ hbody .module, hbody .script⟩
  log := by
    refine ⟨(p.bindings c.dedupeCaptures).map Binding.logEntry, .debug (p.memoize c).report.text, ?_, ?_, ?_⟩
    · exact forall_mem_append.mpr ⟨forall_mem_map.mpr fun _ _ => rfl, forall_mem_singleton.mpr rfl⟩
    · rw [log_as, if_neg (fun hwarn => nomatch hwarn.1), append_nil]
    · rw [log_as, if_pos ⟨rfl, hstyle, hrewritten⟩, append_assoc]
      rfl

-- That a run does not tell modules and scripts apart, but for how the memoize function is brought into scope.
structure KindBlind (p : Program) (c : Config) : Prop where
  -- A module goes through the same states as a script, with the same names.
  steps :
    ∀ s, Steps c.dedupeCaptures (p.as .module).start s ↔ Steps c.dedupeCaptures (p.as .script).start s
  finish : (p.as .module).finish c.dedupeCaptures = (p.as .script).finish c.dedupeCaptures
  memoizeName : ∀ kind, ((p.as kind).expansion c.dedupeCaptures).1 = (p.expansion c.dedupeCaptures).1
  report : ((p.as .module).memoize c).report = ((p.as .script).memoize c).report
  listed : (p.as .module).renderFunctions = (p.as .script).renderFunctions
  -- Nothing but the items is changed.
  around :
    ∀ kind, ((p.as kind).memoize c).program = { p.as kind with body := ((p.as kind).memoize c).program.body }
  alike :
    ¬(c.importStyle = .esModule ∧ 0 < (p.memoize c).report.rewrittenFunctions) →
      ((p.as .module).memoize c).program.body = ((p.as .script).memoize c).program.body ∧
      ((p.as .module).memoize c).log = ((p.as .script).memoize c).log
  diverges :
    c.importStyle = .esModule → 0 < (p.memoize c).report.rewrittenFunctions → p.Diverges c

-- Modules and scripts are treated alike.
theorem kindBlind (p : Program) (c : Config) : p.KindBlind c where
  steps       := fun _ => .rfl
  finish      := rfl
  memoizeName := fun _ => rfl
  report      := rfl
  listed      := rfl
  around      := fun _ => rfl
  alike       := memoize_as_eq
  diverges    := Program.diverges

end Program

end RenderMemo
