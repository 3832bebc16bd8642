import Diffmonger.Basic

/-!
# The tree of nodes (`diffmonger.hpp`)

The functions of the namespace `tree`, on 64-bit words as the source computes them. A function that
takes a functor is modelled by `Calls`: the nodes on which it calls the functor, in order, and how
it ends. Its loop takes a fuel argument; every loop here shifts a mask or clears a bit on each
iteration, so that 64 iterations are more than enough (`Tree/Loops.lean` shows that no loop runs
out of fuel).
-/

namespace Diffmonger.Tree

/-- What a call of a function that takes a functor does. -/
structure Calls where
  nodes : List UInt64
  result : Result Exn Unit
  deriving DecidableEq, Repr

/-- The functor is called on `nodes` before the calls of `c`. -/
def Calls.after (c : Calls) (nodes : List UInt64) : Calls := { c with nodes := nodes ++ c.nodes }

@[simp] theorem Calls.after_nodes (c : Calls) (nodes : List UInt64) :
    (c.after nodes).nodes = nodes ++ c.nodes := rfl

@[simp] theorem Calls.after_result (c : Calls) (nodes : List UInt64) :
    (c.after nodes).result = c.result := rfl

def fenwickPathExcRootLoop : ℕ → UInt64 → Calls
  | 0, _ => ⟨[], .diverged⟩
  | fuel + 1, node =>
    if node = 0 then ⟨[], .val ()⟩
    else (fenwickPathExcRootLoop fuel (node - (node &&& -node))).after [node]

/-- Calls the functor on the nodes of the Fenwick path from, but not including, the root to the
given node in decreasing order. -/
def fenwickPathExcRoot (node : UInt64) : Calls := fenwickPathExcRootLoop 65 node

def fenwickPathIncRoot (node : UInt64) : Calls :=
  let c := fenwickPathExcRoot node
  { c with nodes := c.nodes ++ [0] }

/-- The parent of the given node, or the given node itself if it is already the root. -/
def fenwickParent (node : UInt64) : UInt64 := node - (node &&& -node)

def aliveAfterLoop (node : UInt64) : ℕ → (cur uint2powm : UInt64) → Calls
  | 0, _, _ => ⟨[], .diverged⟩
  | fuel + 1, cur, uint2powm =>
    let candidate := cur + (uint2powm >>> 2)
    let reported :=
      if (uint2powm >>> 1) + (uint2powm >>> 2) ≤ node - cur ∧ candidate ≠ cur
      then [candidate, cur] else [cur]
    if cur = 0 then ⟨reported, .val ()⟩
    else if uint2powm = (1 : UInt64) <<< 63 then ⟨reported, .exn (.runtimeError "Node too big")⟩
    else (aliveAfterLoop node fuel ((cur - 1) &&& ~~~(uint2powm - 1)) (uint2powm <<< 1)).after
      reported

/-- Calls the functor on each node that should be alive just after the creation of the given node,
in decreasing order. -/
def aliveAfter (node : UInt64) : Calls := aliveAfterLoop node 64 node 1

/-- The node upon whose creation the given node dies. -/
def timeOfDemise (node : UInt64) : Except Exn UInt64 :=
  if node = 0 then .error (.invalidArgument "time_of_demise(0) is undefined")
  else .ok (node + 3 * (node &&& -node))

def pruneLoop (node : UInt64) : ℕ → (mask : UInt64) → Calls
  | 0, _ => ⟨[], .diverged⟩
  | fuel + 1, mask =>
    if node &&& ~~~mask = 0 then ⟨[], .val ()⟩
    else if mask = ((1 : UInt64) <<< 63) - 1 then ⟨[], .exn (.runtimeError "Node too big")⟩
    else if node &&& mask ≠ 0 then ⟨[], .val ()⟩
    else
      let k := mask + (mask >>> 1) + 2
      (pruneLoop node fuel (mask ||| (mask <<< 1))).after (if k ≤ node then [node - k] else [])

/-- Calls the functor on each node that should be deleted just after the creation of the given node,
in order from greatest first. -/
def prune (node : UInt64) : Calls := pruneLoop node 64 1

/-- The tree of 24 nodes of the documentation. -/
example : (aliveAfter 23).nodes = [23, 22, 21, 20, 18, 16, 12, 8, 0] := by decide

end Diffmonger.Tree
