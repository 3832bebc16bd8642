import Diffmonger.RepositoryStructure

/-!
# Quarantine (`Trust.cpp`)

Times are nanoseconds, as 64-bit signed integers. Where a sum does not fit, the behaviour of the
source is undefined: `plus` is what the sum then is. `exactPlus` is the sum of integers, `wrapPlus`
what a machine that wraps around computes.
-/

namespace Diffmonger.Trust

open RepositoryStructure

def exactPlus (a b : Int64) : ℤ := a.toInt + b.toInt

def wrapPlus (a b : Int64) : ℤ := (a + b).toInt

variable {β : Type}

/-- The breadcrumb once the candidate is trusted, if it is to be trusted at the time `now`. -/
def maybeUpdateBreadcrumb (plus : Int64 → Int64 → ℤ) (breadcrumb : Breadcrumb)
    (candidate : Encoded) (minTimeBetweenSnapshots now : Int64) : Repo β (Option Breadcrumb) := do
  if breadcrumb.untrustedBegin = Node.initialValue then
    -- the candidate is the initial node; always trust it
    let next ← Prog.ofExcept breadcrumb.untrustedBegin.next
    return some ⟨next, now⟩
  else if candidate.node ≠ breadcrumb.untrustedBegin then
    Prog.throw (.invalidArgument "is_trusted: invalid candidate")
  else
    let cursnapshot ← getEncodedSnapshotId ⟨breadcrumb.untrustedBegin.value - 1⟩
    -- a candidate that is older than its predecessor is an attack
    if candidate.timestamp < cursnapshot.timestamp then return none
    else
      let effectiveNow := max breadcrumb.lastTrustedNodeAuthorisedAt now
      let quarantineEnds := plus breadcrumb.lastTrustedNodeAuthorisedAt minTimeBetweenSnapshots
      let trustedAt := max quarantineEnds candidate.timestamp.toInt
      if trustedAt ≤ effectiveNow.toInt then
        let next ← Prog.ofExcept candidate.node.next
        return some ⟨next, Int64.ofInt trustedAt⟩
      else return none

end Diffmonger.Trust
