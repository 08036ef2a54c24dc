import RenderMemo.Proofs.Prelude
import RenderMemo.Proofs.Spellings

open List

namespace RenderMemo.Command

section

variable {ε α β : Type} {x : Except ε α} {f : α → Except ε β} {a : α} {P : α → Prop} {Q : β → Prop}

-- That whatever comes out, if nothing fails, has a property.
def Yields (x : Except ε α) (P : α → Prop) : Prop := ∀ a, x = .ok a → P a

theorem yields_ok (h : P a) : Yields (.ok a : Except ε α) P := by
  rintro _ ⟨⟩
  exact h

theorem yields_error (e : ε) : Yields (.error e) P := by
  rintro _ ⟨⟩

theorem Yields.bind (hx : Yields x P) (hf : ∀ a, P a → Yields (f a) Q) : Yields (x >>= f) Q := by
  intro b hb
  obtain ⟨a, ha, hb⟩ := bind_eq_ok_iff.mp hb
  exact hf a (hx a ha) b hb

theorem Yields.of_mapM {g : β → Except ε α} (hg : ∀ b, Yields (g b) P) (bs : List β) :
    Yields (bs.mapM g) (∀ a ∈ ·, P a) := by
  induction bs
  case nil => exact yields_ok (by simp)
  case cons b bs hi =>
    rw [mapM_cons]
    exact (hg b).bind fun _ ha => hi.bind fun _ has => yields_ok (forall_mem_cons.mpr ⟨ha, has⟩)

end

-- No empty path is ever taken.

theorem yields_pathOfText (text : String) : Yields (pathOfText text) (· ≠ "") := by
  rw [pathOfText]
  split
  case isTrue      => exact yields_error _
  case isFalse hne => exact yields_ok (by simpa using hne)

namespace Options

variable {o : Options}

theorem NamesPaths.assign (h : o.NamesPaths) (v : Valued) (text : String) :
    Yields (o.assign v text) NamesPaths := by
  unfold Options.assign
  split
  case isTrue => exact yields_error _
  case isFalse =>
    cases v
    case config =>
      exact (yields_pathOfText text).bind fun _ hpath =>
        yields_ok ⟨h.files, fun heq => hpath (Option.some.inj heq), h.outDir⟩
    case outDir =>
      exact (yields_pathOfText text).bind fun _ hpath =>
        yields_ok ⟨h.files, h.config, fun heq => hpath (Option.some.inj heq)⟩
    case memoizeModule => exact yields_ok ⟨h.files, h.config, h.outDir⟩
    case cacheSize | importStyle =>
      simp only
      split
      case h_1 => exact yields_ok ⟨h.files, h.config, h.outDir⟩
      case h_2 => exact yields_error _

theorem NamesPaths.raise (h : o.NamesPaths) (f : Flag) : Yields (o.raise f) NamesPaths := by
  cases f
  case help => exact yields_error _
  all_goals
    rw [Options.raise]
    split
    case isTrue  => exact yields_error _
    case isFalse => exact yields_ok ⟨h.files, h.config, h.outDir⟩

end Options

namespace Reading

-- What was taken so far names its paths.
def Sound (r : Reading) : Prop := r.options.NamesPaths

variable {r : Reading}

theorem Sound.settle (h : r.Sound) : Yields r.settle Sound := by
  rw [Reading.settle]
  split
  case h_1 => exact yields_ok h
  case h_2 ps _ =>
    refine (Yields.of_mapM yields_pathOfText ps).bind fun _ hpaths => yields_ok ⟨?_, h.config, h.outDir⟩
    exact fun hmem => (mem_append.mp hmem).elim h.files fun hempty => hpaths "" hempty rfl
  case h_3 => exact yields_error _
  case h_4 v text _ => exact (Options.NamesPaths.assign h v text).bind fun _ ho => yields_ok ho

theorem Sound.valued (h : r.Sound) (v : Valued) (attached : Option String) :
    Yields (r.valued v attached) Sound := by
  refine h.settle.bind fun _ hr => ?_
  cases attached
  case none      => exact yields_ok hr
  case some text => exact (Options.NamesPaths.assign hr v text).bind fun _ ho => yields_ok ho

theorem Sound.flag (h : r.Sound) (f : Flag) : Yields (r.flag f) Sound :=
  h.settle.bind fun _ hr => (Options.NamesPaths.raise hr f).bind fun _ ho => yields_ok ho

theorem Sound.path (h : r.Sound) (file : String) : Yields (r.path file) Sound := by
  rw [Reading.path]
  split
  case h_1 => exact yields_ok h
  case h_2 => exact h.settle.bind fun _ hr => yields_ok hr

theorem Sound.long (h : r.Sound) (text : List Char) : Yields (r.long text) Sound := by
  rw [Reading.long]
  split
  case h_1 | h_3 => exact yields_error _
  case h_2       => exact h.valued _ _
  case h_4       => exact h.flag _

theorem Sound.letters (h : r.Sound) (cs : List Char) : Yields (r.letters cs) Sound := by
  induction cs generalizing r
  case nil => exact yields_ok h
  case cons c cs hi =>
    rw [Reading.letters]
    split
    case h_1 => exact yields_error _
    case h_2 => exact (h.flag _).bind fun _ hr => hi hr
    case h_3 => split <;> exact h.valued _ _

theorem Sound.plain (h : r.Sound) (arg : String) : Yields (r.plain arg) Sound := by
  rw [Reading.plain]
  split
  case h_1 => exact yields_ok h
  case h_2 => exact h.path arg

theorem Sound.argument (h : r.Sound) (arg : String) : Yields (r.argument arg) Sound := by
  rw [Reading.argument]
  split
  case isTrue => exact h.path arg
  case isFalse =>
    split
    case h_1 => exact yields_ok h
    case h_2 => exact h.long _
    case h_3 => exact h.letters _
    case h_4 => exact h.plain arg

theorem Sound.arguments (h : r.Sound) (args : List String) : Yields (args.foldlM Reading.argument r) Sound := by
  induction args generalizing r
  case nil              => exact yields_ok h
  case cons arg args hi => exact (h.argument arg).bind fun _ hr => hi hr

theorem Sound.finish (h : r.Sound) : Yields r.finish Options.Complete := by
  refine h.settle.bind fun _ hr => ?_
  split
  case isTrue          => exact yields_error _
  case isFalse hneeded => exact yields_ok ⟨hr, by simpa [or_iff_not_imp_left] using hneeded⟩

end Reading

theorem Options.yields_ofArgs (args : List String) : Yields (ofArgs args) Complete :=
  (Reading.Sound.arguments ⟨by simp, by simp, by simp⟩ args).bind fun _ hr => hr.finish

-- Command lines ask for the complete options, and for no others.
theorem Options.complete_iff {o : Options} : o.Complete ↔ ∃ args, ofArgs args = .ok o :=
  ⟨fun h => ⟨_, ofArgs_spelled h (.refl _) (spelled_long _)⟩, fun ⟨args, h⟩ => yields_ofArgs args o h⟩

end RenderMemo.Command
