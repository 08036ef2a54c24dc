import Mathlib.Data.Finset.Card
import Mathlib.Order.Bounds.Basic
import RenderMemo.Proofs.FreshNames

namespace RenderMemo.Names

variable {names : Names} {base : String}

-- The names that are taken, whatever their order.
def set (names : Names) : Finset String := names.taken.toFinset

@[simp]
theorem mem_set {x : String} : x ∈ names.set ↔ x ∈ names.taken :=
  List.mem_toFinset

theorem set_generate (names : Names) (base : String) :
    (names.generate base).2.set = insert (names.generate base).1 names.set :=
  List.toFinset_cons

-- The name that a base and a suffix make. The suffix 1 is not written.
def suffixed (base : String) (suffix : Nat) : String :=
  if 1 < suffix then "_" ++ base ++ toString suffix else "_" ++ base

theorem suffixed_succ (base : String) (i : Nat) : suffixed base (i + 1) = candidate base i := by
  cases i
  case zero => rfl
  case succ => exact if_pos (by omega)

theorem suffixed_injOn (base : String) : Set.InjOn (suffixed base) {n | 1 ≤ n} := by
  intro m hm n hn h
  obtain ⟨i, rfl⟩ := Nat.exists_eq_add_of_le' hm
  obtain ⟨j, rfl⟩ := Nat.exists_eq_add_of_le' hn
  rw [suffixed_succ, suffixed_succ] at h
  exact congrArg _ (candidate_injective base h)

-- The suffix of the name that is handed out for a base.
def suffix (names : Names) (base : String) : Nat := names.firstFree base + 1

theorem generate_eq_suffixed (names : Names) (base : String) :
    (names.generate base).1 = suffixed base (names.suffix base) :=
  (suffixed_succ base _).symm

theorem isLeast_suffix (names : Names) (base : String) :
    IsLeast {n | 1 ≤ n ∧ suffixed base n ∉ names.set} (names.suffix base) := by
  constructor
  case left =>
    refine ⟨Nat.le_add_left .., ?_⟩
    rw [suffix, suffixed_succ, mem_set]
    exact names.candidate_firstFree_not_mem base
  case right =>
    intro n ⟨hpos, hfree⟩
    obtain ⟨i, rfl⟩ := Nat.exists_eq_add_of_le' hpos
    rw [suffixed_succ, mem_set] at hfree
    exact Nat.succ_le_succ <| not_lt.mp <| mt candidate_mem_of_lt_firstFree hfree

-- Names that are listed more than once count once here, so the bound is that of the list without duplicates.
theorem suffix_le_card (names : Names) (base : String) : names.suffix base ≤ names.set.card + 1 := by
  have ⟨i, hi, hfree⟩ := exists_free ⟨names.taken.dedup⟩ base
  rw [List.mem_dedup, ← mem_set, ← suffixed_succ] at hfree
  rw [set, List.card_toFinset]
  exact (names.isLeast_suffix base).2 ⟨Nat.le_add_left .., hfree⟩ |>.trans hi

-- Where a search stands: it is about to try a suffix, or has handed out a name.
inductive Search
  | trying (suffix : Nat)
  | handed (name : String) (names : Names)

namespace Search

-- One turn of a search looks at one candidate. It takes the candidate if it is free, and goes on with the
-- next suffix otherwise. Nothing but a free candidate ends the search.
def turn (names : Names) (base : String) : Search → Search
  | trying suffix =>
    if suffixed base suffix ∈ names.taken then trying (suffix + 1)
    else handed (suffixed base suffix) ⟨suffixed base suffix :: names.taken⟩
  | handed name names => handed name names

theorem turn_of_mem {n : Nat} (h : suffixed base n ∈ names.taken) :
    turn names base (trying n) = trying (n + 1) :=
  if_pos h

theorem turn_suffix (names : Names) (base : String) :
    turn names base (trying (names.suffix base)) =
      handed (names.generate base).1 (names.generate base).2 := by
  have hfree := (names.isLeast_suffix base).1.2
  rw [mem_set] at hfree
  rw [turn, if_neg hfree, ← generate_eq_suffixed]
  rfl

-- All candidates in front of the one that is handed out are taken, and are tried in their order.
theorem iterate_turn {k : Nat} (h : k < names.suffix base) :
    (turn names base)^[k] (trying 1) = trying (k + 1) := by
  induction k
  case zero => rfl
  case succ k hi =>
    have hmem : suffixed base (k + 1) ∈ names.taken :=
      suffixed_succ base k ▸ candidate_mem_of_lt_firstFree (Nat.lt_of_succ_lt_succ h)
    rw [Function.iterate_succ_apply', hi (Nat.lt_of_succ_lt h), turn_of_mem hmem]

theorem iterate_turn_suffix (names : Names) (base : String) :
    (turn names base)^[names.suffix base] (trying 1) =
      handed (names.generate base).1 (names.generate base).2 := by
  have hbefore : (turn names base)^[names.firstFree base] (trying 1) = trying (names.suffix base) :=
    iterate_turn (Nat.lt_succ_self _)
  rw [suffix, Function.iterate_succ_apply', hbefore, turn_suffix]

end Search

-- Takes a name for each of several bases, one after the other. Each base comes back with its name.
def generateEach (names : Names) : List String → List (String × String) × Names
  | [] => ([], names)
  | base :: bases =>
    let (name, names₁) := names.generate base
    let (others, names₂) := names₁.generateEach bases
    ((base, name) :: others, names₂)

-- The names that one of the bases gets.
def handedFor (names : Names) (bases : List String) (base : String) : List String :=
  ((names.generateEach bases).1.filter (·.1 == base)).map Prod.snd

@[simp]
theorem handedFor_cons_self (names : Names) (base : String) (bases : List String) :
    names.handedFor (base :: bases) base =
      (names.generate base).1 :: (names.generate base).2.handedFor bases base := by
  simp [handedFor, generateEach]

theorem handedFor_cons_of_ne {b : String} {bases : List String} (h : b ≠ base) :
    names.handedFor (b :: bases) base = (names.generate b).2.handedFor bases base := by
  simp [handedFor, generateEach, h]

theorem bases_generateEach (names : Names) (bases : List String) :
    (names.generateEach bases).1.map Prod.fst = bases := by
  induction bases generalizing names
  case nil => rfl
  case cons hi => exact congrArg _ (hi _)

theorem Hands.generateEach (names : Names) (bases : List String) :
    Hands names ((names.generateEach bases).1.map Prod.snd) (names.generateEach bases).2 := by
  induction bases generalizing names
  case nil => exact .none _
  case cons hi => exact .next (hi _)

theorem Hands.set_eq {xs : List String} {names₁ : Names} (h : Hands names xs names₁) :
    names₁.set = xs.toFinset ∪ names.set := by
  rw [set, h.taken_eq, List.toFinset_append, List.toFinset_reverse, set]

theorem not_mem_taken_of_mem_handedFor {bases : List String} {x : String}
    (h : x ∈ names.handedFor bases base) : x ∉ names.taken :=
  (Hands.generateEach names bases).not_mem_taken <| (List.filter_sublist.map Prod.snd).subset h

-- A name that is free after a call for its base comes behind the one that the call gives. All names in front
-- of that one are taken, whether by a call for the base, by one for another base, or from the start.
theorem suffix_lt_of_not_mem {n : Nat} (hpos : 1 ≤ n)
    (h : suffixed base n ∉ (names.generate base).2.taken) : names.suffix base < n := by
  have hfree : suffixed base n ∉ names.set := fun hm => h (List.mem_cons_of_mem _ (mem_set.mp hm))
  have hne : names.suffix base ≠ n := by
    rintro rfl
    exact h (generate_eq_suffixed names base ▸ List.mem_cons_self)
  exact lt_of_le_of_ne ((names.isLeast_suffix base).2 ⟨hpos, hfree⟩) hne

theorem exists_suffixes (names : Names) (bases : List String) (base : String) :
    ∃ suffixes : List Nat, suffixes.Pairwise (· < ·) ∧ (∀ n ∈ suffixes, 1 ≤ n) ∧
      names.handedFor bases base = suffixes.map (suffixed base) := by
  induction bases generalizing names
  case nil => exact ⟨[], .nil, nofun, rfl⟩
  case cons b bases hi =>
    have ⟨suffixes, hlt, hpos, heq⟩ := hi (names.generate b).2
    by_cases hb : b = base
    case neg => exact ⟨suffixes, hlt, hpos, handedFor_cons_of_ne hb ▸ heq⟩
    case pos =>
      subst hb
      have hbehind (n : Nat) (hn : n ∈ suffixes) : names.suffix b < n :=
        suffix_lt_of_not_mem (hpos n hn) <| not_mem_taken_of_mem_handedFor <|
          heq ▸ List.mem_map_of_mem hn
      refine ⟨names.suffix b :: suffixes, List.pairwise_cons.mpr ⟨hbehind, hlt⟩,
        List.forall_mem_cons.mpr ⟨Nat.le_add_left .., hpos⟩, ?_⟩
      rw [handedFor_cons_self, heq, generate_eq_suffixed, List.map_cons]

-- That the search for a name comes to the first one that is free.
structure Finds (names : Names) (base : String) : Prop where
  least  : IsLeast {n | 1 ≤ n ∧ suffixed base n ∉ names.set} (names.suffix base)
  -- The search looks at one candidate in each turn, in their order, and ends with the least one that is free.
  tries  : ∀ k < names.suffix base, (Search.turn names base)^[k] (.trying 1) = .trying (k + 1)
  ends   :
    (Search.turn names base)^[names.suffix base] (.trying 1) =
      .handed (names.generate base).1 (names.generate base).2
  -- At most, all names that are taken are candidates in front of it.
  within : names.suffix base ≤ names.set.card + 1
  name   : (names.generate base).1 = suffixed base (names.suffix base)
  -- This name is taken from then on. No other name becomes taken, and none becomes free.
  adds   : (names.generate base).2.set = insert (names.generate base).1 names.set

-- What is handed out when names are asked for, for any bases in any order.
structure Serves (names : Names) (bases : List String) : Prop where
  all        : (names.generateEach bases).1.map Prod.fst = bases
  nodup      : ((names.generateEach bases).1.map Prod.snd).Nodup
  fresh      : ∀ x ∈ (names.generateEach bases).1.map Prod.snd, x ∉ names.set
  adds       :
    (names.generateEach bases).2.set = ((names.generateEach bases).1.map Prod.snd).toFinset ∪ names.set
  increasing :
    ∀ base, ∃ suffixes : List Nat, suffixes.Pairwise (· < ·) ∧ (∀ n ∈ suffixes, 1 ≤ n) ∧
      names.handedFor bases base = suffixes.map (suffixed base)

-- That names never run out, and that none is handed out twice.
structure Supplies (names : Names) : Prop where
  finds  : ∀ base, names.Finds base
  -- A name has one suffix for a base.
  unique : ∀ base, Set.InjOn (suffixed base) {n | 1 ≤ n}
  serves : ∀ bases, names.Serves bases

theorem finds (names : Names) (base : String) : names.Finds base where
  least  := names.isLeast_suffix base
  tries  := fun _ h => Search.iterate_turn h
  ends   := Search.iterate_turn_suffix names base
  within := names.suffix_le_card base
  name   := names.generate_eq_suffixed base
  adds   := names.set_generate base

theorem serves (names : Names) (bases : List String) : names.Serves bases where
  all        := names.bases_generateEach bases
  nodup      := (Hands.generateEach names bases).nodup
  fresh      := fun _ hx hm => (Hands.generateEach names bases).not_mem_taken hx (mem_set.mp hm)
  adds       := (Hands.generateEach names bases).set_eq
  increasing := names.exists_suffixes bases

theorem supplies (names : Names) : names.Supplies where
  finds  := names.finds
  unique := suffixed_injOn
  serves := names.serves

-- The bases `x2` and `x` share a candidate.
example : ((⟨["_x", "_x4"]⟩ : Names).generateEach ["x2", "x", "x"]).1 =
    [("x2", "_x2"), ("x", "_x3"), ("x", "_x5")] := by
  decide

end RenderMemo.Names
