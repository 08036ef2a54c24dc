import RenderMemo.Proofs.Runs

open List

namespace RenderMemo

variable {a b : Level}

-- A filter sees of all messages what it sees behind a filter that lets more through.
theorem linesFrom_linesFrom (h : a.rank ≤ b.rank) (log : List LogLine) :
    linesFrom b (linesFrom a log) = linesFrom b log := by
  simp only [linesFrom, filter_filter]
  refine filter_congr fun line _ => ?_
  rw [← Bool.decide_and]
  exact decide_eq_decide.mpr <| and_iff_left_of_imp h.trans

theorem linesFrom_info (log : List LogLine) : linesFrom .info log = log.filter (·.level != .debug) := by
  refine filter_congr fun line _ => ?_
  cases line.level <;> rfl

-- Messages that are about to be dropped need not be the same.
theorem linesFrom_replace {line line' : LogLine} (h : line.level.rank < b.rank)
    (h' : line'.level.rank < b.rank) (front back : List LogLine) :
    linesFrom b (front ++ line :: back) = linesFrom b (front ++ line' :: back) := by
  simp [linesFrom, Nat.not_le.mpr h, Nat.not_le.mpr h']

namespace Command

section

variable (t : Toolchain) (o : Options) (verbose : Bool) (c : Config) (fs : FileSystem)

-- Whatever comes of a source file, and of a run, does not depend on the messages that are shown.

theorem processFile_verbose (path : String) :
    processFile t { o with verbose } c fs path = processFile t o c fs path :=
  rfl

theorem processFiles_verbose (paths : List String) :
    processFiles t { o with verbose } c fs paths = processFiles t o c fs paths := by
  induction paths generalizing fs
  case nil            => rfl
  case cons path _ hi => rw [processFiles, processFiles, processFile_verbose, hi]

theorem runFiles_verbose : runFiles t { o with verbose } c fs = runFiles t o c fs := by
  rw [runFiles, runFiles, processFiles_verbose]

theorem run_verbose : run t { o with verbose } fs = run t o fs := by
  have hconfig : loadConfig { o with verbose } fs = loadConfig o fs := rfl
  simp only [run, hconfig, runFiles_verbose]

end

-- A run is closed in the same way at every level of messages. The closing message tells how long the run
-- took, so that two runs may close with different ones.
theorem RunOutcome.close_log (done : RunOutcome) (h : a.rank ≤ b.rank) (hb : Level.debug.rank < b.rank)
    (closing closing' : String) :
    (done.close b closing).log = linesFrom b (done.close a closing').log := by
  rw [close, close, linesFrom_linesFrom h]
  exact linesFrom_replace hb hb ..

-- That two sessions are the same, apart from messages that only one of them shows.
structure Session.Hushes (quiet loud : Session) : Prop where
  exitCode : quiet.exitCode = loud.exitCode
  output   : quiet.output = loud.output
  files    : quiet.files = loud.files
  log      : quiet.log = loud.log.filter (·.level != .debug)

theorem Options.hushed (t : Toolchain) (o : Options) (closing closing' : String) (fs : FileSystem) :
    (Options.session t { o with verbose := false } closing fs).Hushes
      (Options.session t { o with verbose := true } closing' fs) := by
  rw [session, session, run_verbose t o false, run_verbose t o true]
  constructor
  case exitCode => rfl
  case output   => rfl
  case files    => rfl
  case log =>
    have hlevel : Level.debug.rank ≤ Level.info.rank := Nat.zero_le _
    rw [← linesFrom_info]
    exact (run t o fs).close_log hlevel (by decide) closing closing'

end Command

end RenderMemo
