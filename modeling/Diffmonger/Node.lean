import Diffmonger.Tree.Loops

/-!
# Nodes (`Node.hpp`)
-/

namespace Diffmonger

/-- The number of a snapshot in the tree. -/
structure Node where
  value : UInt64
  deriving DecidableEq, Repr

namespace Node

/-- The only node for which a full image is stored; all others are diffs. -/
def initialValue : Node := ⟨0⟩

def isRoot (node : Node) : Bool := node.value == initialValue.value

def next (node : Node) : Except Exn Node :=
  if node.value = 0xffffffffffffffff then .error (.runtimeError "Node too big")
  else .ok ⟨node.value + 1⟩

def fenwickPathIncRoot (node : Node) : Tree.Calls := Tree.fenwickPathIncRoot node.value

def fenwickParent (node : Node) : Node := ⟨Tree.fenwickParent node.value⟩

def fenwickMaybeParent (node : Node) : Option Node :=
  if node.isRoot then none else some node.fenwickParent

def aliveAfter (node : Node) : Tree.Calls := Tree.aliveAfter node.value

def prune (node : Node) : Tree.Calls := Tree.prune node.value

/-- The number of a node, as a natural number. -/
abbrev toNat (node : Node) : ℕ := node.value.toNat

theorem toNat_inj {m n : Node} : m.toNat = n.toNat ↔ m = n := by
  rw [toNat, toNat, UInt64.toNat_inj]
  exact ⟨fun h => by cases m; cases n; exact congrArg _ h, fun h => h ▸ rfl⟩

@[simp] theorem toNat_initialValue : initialValue.toNat = 0 := rfl

theorem ne_initialValue_of_toNat {node : Node} {n : ℕ} (h : node.toNat = n + 1) :
    node ≠ initialValue := by
  rintro rfl
  rw [toNat_initialValue] at h
  cases h

theorem toNat_lt (node : Node) : node.toNat < 2 ^ 64 := node.value.toNat_lt

@[simp] theorem isRoot_iff {node : Node} : node.isRoot = true ↔ node = initialValue := by
  rw [isRoot, beq_iff_eq]
  exact ⟨fun h => by cases node; exact congrArg _ h, fun h => h ▸ rfl⟩

/-- The node with the given number. -/
def ofNat (n : ℕ) : Node := ⟨UInt64.ofNat n⟩

theorem toNat_ofNat {n : ℕ} (hn : n < 2 ^ 64) : (ofNat n).toNat = n := UInt64.toNat_ofNat_of_lt' hn

theorem ofNat_toNat (node : Node) : ofNat node.toNat = node := by
  rw [← toNat_inj, toNat_ofNat node.toNat_lt]

theorem next_of_toNat_lt {node : Node} (h : node.toNat < 2 ^ 64 - 1) :
    node.next = .ok (ofNat (node.toNat + 1)) := by
  have hne : node.value ≠ 0xffffffffffffffff := by
    intro he
    rw [toNat, he] at h
    exact absurd h (by decide)
  rw [next, if_neg hne]
  refine congrArg Except.ok (toNat_inj.mp ?_)
  rw [toNat_ofNat (by omega)]
  show (node.value + 1).toNat = _
  rw [UInt64.toNat_add]
  exact Nat.mod_eq_of_lt (Nat.lt_of_lt_of_le (Nat.succ_lt_succ h) (by decide))

theorem toNat_next {node node' : Node} (h : node.next = .ok node') :
    node'.toNat = node.toNat + 1 := by
  rcases Nat.lt_or_ge node.toNat (2 ^ 64 - 1) with hlt | hge
  · rw [next_of_toNat_lt hlt] at h
    cases h
    exact toNat_ofNat (by omega)
  · -- the greatest node has no successor
    have hmax : node.value = 0xffffffffffffffff := by
      have hlt := node.toNat_lt
      have heq : node.toNat = 2 ^ 64 - 1 := by omega
      exact UInt64.toNat_inj.mp heq
    rw [next, if_pos hmax] at h
    cases h

theorem toNat_pred {node : Node} (h : node ≠ initialValue) :
    (⟨node.value - 1⟩ : Node).toNat = node.toNat - 1 := by
  refine UInt64.toNat_sub_one fun hz => h ?_
  rw [← toNat_inj]
  exact congrArg UInt64.toNat hz

theorem toNat_fenwickParent (node : Node) :
    node.fenwickParent.toNat = fenwick.parent node.toNat :=
  Tree.toNat_fenwickParent node.value

end Node

end Diffmonger
