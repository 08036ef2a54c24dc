import RenderMemo.Proofs.Partition
import RenderMemo.Proofs.Rounding
import RenderMemo.Proofs.Trace

open List

namespace RenderMemo

namespace Node

-- The number that a literal denotes.
def number? : Node → Option Nat
  | mk (.form .numericLiteral _ attrs) _ =>
    match attrs.lookup "value" with
    | some (.num (.ofNat value) 0) => some value
    | _ => none
  | _ => none

-- The numbers that are written in a tree.
def numbers (n : Node) : List Nat := n.subtrees.filterMap number?

-- The calls of names, each with the name.
def namedCalls (n : Node) : List (String × Node) :=
  n.subtrees.filterMap fun m => m.callee?.map (·, m)

theorem callsTo_eq (x : String) (n : Node) : n.callsTo x = (n.namedCalls.filter (·.1 == x)).map Prod.snd := by
  rw [callsTo, namedCalls]
  induction n.subtrees
  case nil => rfl
  case cons m ms hi =>
    rw [filterMap_cons, filter_cons, hi]
    cases m.callee?
    case none => rfl
    case some y =>
      rw [Option.map_some, filter_cons, Option.some_beq_some]
      split <;> rfl

theorem callsTo_eq_nil {x : String} {n : Node} (h : x ∉ n.mentions) : n.callsTo x = [] :=
  filter_eq_nil_iff.mpr fun _ hm hcallee =>
    h <| mentions_subset_of_mem_subtrees hm <| callee?_mem_mentions (eq_of_beq hcallee)

-- `memoize(capacity)`
def capacityCall (memoize : String) (capacity : Nat) : Node :=
  .call (.named memoize) [.entry (.numericLiteral capacity)]

@[simp]
theorem numbers_capacityCall (memoize : String) (capacity : Nat) :
    (capacityCall memoize capacity).numbers = [capacity] :=
  rfl

end Node

theorem callsTo_memoize_binderDeclaration (binder memoize : String) (cacheSize : UInt64) :
    (binderDeclaration binder memoize cacheSize).callsTo memoize =
      [.capacityCall memoize (Decimal.toDouble cacheSize.toNat)] := by
  have hcalls : (binderDeclaration binder memoize cacheSize).namedCalls =
      [(memoize, .capacityCall memoize (Decimal.toDouble cacheSize.toNat))] :=
    rfl
  rw [Node.callsTo_eq, hcalls]
  simp

theorem callsTo_memoizeImport {memoize : String} (kind : ProgramKind) (c : Config) (h : memoize ≠ "require") :
    (memoizeImport kind c memoize).callsTo memoize = [] := by
  rw [Node.callsTo_eq, map_eq_nil_iff, filter_eq_nil_iff]
  unfold memoizeImport
  split
  case h_1 => exact nofun
  case h_2 =>
    have hcalls : (requireDeclaration memoize c.memoizeModule).namedCalls =
        [("require", .call (.named "require") [.entry (.stringLiteral c.memoizeModule)])] :=
      rfl
    rw [hcalls, forall_mem_singleton]
    simpa using h.symm

namespace Program

variable {p : Program} {c : Config} {y : Emitted}

-- The calls of the memoize function in a result.
def memoizeCalls (p : Program) (c : Config) : List Node :=
  (p.memoize c).program.body.flatMap (Node.callsTo (p.expansion c.dedupeCaptures).1)

theorem callsTo_memoize_nodeOf (hy : y ∈ (p.expansion c.dedupeCaptures).2.items) :
    (p.nodeOf c y).callsTo (p.expansion c.dedupeCaptures).1 =
      (y.binding?.map fun _ => .capacityCall (p.expansion c.dedupeCaptures).1
        (Decimal.toDouble c.cacheSize.toNat)).toList := by
  cases hbinding : y.binding?
  case none =>
    have hmentions := contains_memoize_nodeOf (c := c) hy
    rw [hbinding, Option.isSome_none] at hmentions
    exact Node.callsTo_eq_nil <| by simpa using hmentions
  case some =>
    cases y
    case binder  => exact callsTo_memoize_binderDeclaration ..
    case closure => nomatch hbinding
    case own     => nomatch hbinding

theorem callsTo_memoize_import {d : Node} (hd : d ∈ p.imports c) :
    d.callsTo (p.expansion c.dedupeCaptures).1 = [] := by
  have hhead := head?_eq_of_mem_generatedNames (p := p) (memoizeName_mem_generatedNames (c := c))
  rw [eq_of_mem_imports hd]
  refine callsTo_memoizeImport _ _ fun heq => ?_
  exact absurd (heq ▸ hhead) (by decide)

theorem memoizeCalls_eq :
    p.memoizeCalls c = (p.binders c).map fun _ =>
      .capacityCall (p.expansion c.dedupeCaptures).1 (Decimal.toDouble c.cacheSize.toNat) := by
  have himports : (p.imports c).flatMap (Node.callsTo (p.expansion c.dedupeCaptures).1) = [] :=
    flatMap_eq_nil_iff.mpr fun _ => callsTo_memoize_import
  rw [memoizeCalls, memoize_body_eq, flatMap_append, himports, nil_append, flatMap_map, binders_eq, map_map,
    bindings, Expansion.bindings, map_filterMap, filterMap_eq_flatMap_toList]
  exact flatMap_congr fun y hy => callsTo_memoize_nodeOf hy

theorem filter_introduced?_binder {b : Binding} (hb : b ∈ p.bindings c.dedupeCaptures) :
    (p.memoize c).program.body.filter (·.introduced? == some b.binder) =
      [binderDeclaration b.binder (p.expansion c.dedupeCaptures).1 c.cacheSize] := by
  have hprovides := provides_of_mem_binding hb mem_cons_self
  refine hprovides.filter_introduced? ?_ <| introduced?_nodeOf (binder_mem hb) mem_cons_self
  rw [memoize_body_eq]
  exact mem_append_right _ <| mem_map_of_mem (binder_mem hb)

theorem length_binders : (p.binders c).length = (p.memoize c).report.rewrittenFunctions := by
  rw [binders_eq, length_map]
  rfl

theorem forall_memoizeCalls {P : Node → Prop} (h : 0 < (p.memoize c).report.rewrittenFunctions) :
    (∀ call ∈ p.memoizeCalls c, P call) ↔
      P (.capacityCall (p.expansion c.dedupeCaptures).1 (Decimal.toDouble c.cacheSize.toNat)) := by
  rw [← length_binders, length_pos_iff_exists_mem] at h
  have ⟨x, hx⟩ := h
  rw [memoizeCalls_eq, forall_mem_map]
  exact ⟨fun hall => hall x hx, fun h _ _ => h⟩

-- How the cache size gets into a result.
structure Sized (p : Program) (c : Config) : Prop where
  -- The memoize function is called once for every binder, with one literal and nothing else,
  calls : p.memoizeCalls c =
    (p.binders c).map fun _ =>
      .capacityCall (p.expansion c.dedupeCaptures).1 (Decimal.toDouble c.cacheSize.toNat)
  count : (p.binders c).length = (p.memoize c).report.rewrittenFunctions
  -- and each call stands in the declaration of a binder.
  declared : ∀ x ∈ p.binders c, ∃ d, (p.memoize c).program.body.filter (·.introduced? == some x) = [d] ∧
    (d.callsTo (p.expansion c.dedupeCaptures).1).map Node.numbers = [[Decimal.toDouble c.cacheSize.toNat]]
  -- The cache size is the one that was written down,
  written : ∀ s : Settings, s.validate = .ok c → c.cacheSize = s.cacheSize
  -- and the literal denotes the double that is nearest to it,
  rounded : ∀ d, Decimal.RoundsTo c.cacheSize.toNat d ↔ d = Decimal.toDouble c.cacheSize.toNat
  near : Decimal.distance (Decimal.toDouble c.cacheSize.toNat) c.cacheSize.toNat ≤ 1024
  positive : 0 < Decimal.toDouble c.cacheSize.toNat
  -- so that it denotes the cache size itself exactly if that is a double.
  exact_iff : 0 < (p.memoize c).report.rewrittenFunctions →
    ((∀ call ∈ p.memoizeCalls c, call.numbers = [c.cacheSize.toNat]) ↔ Decimal.IsDouble c.cacheSize.toNat)
  small : c.cacheSize.toNat ≤ 2 ^ 53 → ∀ call ∈ p.memoizeCalls c, call.numbers = [c.cacheSize.toNat]

theorem sized (p : Program) (c : Config) : p.Sized c where
  calls    := memoizeCalls_eq
  count    := length_binders
  declared := by
    intro x hx
    rw [binders_eq, mem_map] at hx
    have ⟨b, hb, heq⟩ := hx
    refine ⟨_, heq ▸ filter_introduced?_binder hb, ?_⟩
    rw [callsTo_memoize_binderDeclaration]
    rfl
  written s hs := by
    rw [← Settings.settings_of_validate hs]
    rfl
  rounded _ := Decimal.roundsTo_iff
  near     := Decimal.distance_toDouble_le_of_lt c.cacheSize.toNat_lt
  positive := Decimal.toDouble_pos c.cacheSize_pos
  exact_iff hrewritten := by
    rw [forall_memoizeCalls hrewritten, Node.numbers_capacityCall, ← Decimal.toDouble_eq_self_iff]
    simp
  small hsmall := by
    rw [memoizeCalls_eq, forall_mem_map]
    intro _ _
    rw [Node.numbers_capacityCall, Decimal.toDouble_eq_self_iff.mpr (Decimal.isDouble_of_le hsmall)]

-- `function A() { f.bind(this, <a/>); }`
def oneBinder : Program where
  kind := .script
  body :=
    let element : Node := .form .jsxElement [] [(.opening, .form .jsxOpeningElement [] [(.name, .named "a")])]
    let bound : Node := .call (.member (.named "f") "bind") [.entry .this, .entry element]
    [.form .functionDeclaration [] [(.identifier, .named "A"), (.body, .form .blockStatement []
      [(.stmts, .form .expressionStatement [] [(.expression, bound)])])]]

-- The smallest cache size that is not a double.
def oddSize : Config := { Config.default with cacheSize := 9007199254740993, cacheSize_pos := by decide }

-- Another number than the cache size is written where that has too many bits.
theorem not_exact_oddSize :
    ¬ ∀ call ∈ oneBinder.memoizeCalls oddSize, call.numbers = [oddSize.cacheSize.toNat] := by
  decide +kernel

end Program

end RenderMemo
