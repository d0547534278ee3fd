import Otedama.Miner.Header
import Otedama.Poolproto.Text

/-! # Share verdicts

How a rejected share is classified, which rejects are mere artifacts of a
retarget, and when a pool wastes so many shares that the session is
given up. -/

namespace Otedama.Engine

open Miner

/-- Reasons under which rejected shares are counted. `rejectClass` yields
the first five; retarget artifacts are counted under the last. -/
inductive RejectReason where
  | stale
  | duplicate
  | difficulty
  | hardware
  | other
  | difficultyTransition
  deriving DecidableEq, Repr

/-- Does the text contain the words? -/
def containsText (r : List Char) (words : String) : Bool :=
  decide (words.toList <:+: r)

/-- Categorise a pool's rejection reason. The canonical error codes come
before the substring heuristics: `invalid-job-id` is a stale share, not
a hardware fault. -/
def rejectClass (reason : List Char) : RejectReason :=
  let r := reason.map GoString.lowerRune
  if r = "stale-share".toList ∨ r = "invalid-job-id".toList ∨
      r = "invalid-channel-id".toList then .stale
  else if r = "difficulty-too-low".toList then .difficulty
  else if containsText r "stale" || containsText r "job not found" ||
      containsText r "unknown job" then .stale
  else if containsText r "duplicate" then .duplicate
  else if containsText r "above" || containsText r "target" ||
      containsText r "low difficulty" || containsText r "high-hash" then .difficulty
  else if containsText r "invalid" || containsText r "bad" then .hardware
  else .other

/-- Was the share ground under a target that the pool has since replaced?
A zero target (a share that carries none) is not eligible. -/
def transitionReject (category : RejectReason) (issued current : Hash) : Bool :=
  if category ≠ .difficulty then false
  else if issued = Bytes.zero32 then false
  else issued ≠ current

/-- Judged shares a session needs before its acceptance rate is trusted. -/
def yieldFailoverMinJudged : Nat := 32

/-- Has the session's acceptance rate fallen below 90% on enough shares?
The source compares `float64` quotients; for counts below `2^32` that
is the comparison of the exact quotients. -/
def yieldDegraded (accepted rejected : Nat) : Bool :=
  yieldFailoverMinJudged ≤ accepted + rejected && 10 * accepted < 9 * (accepted + rejected)

end Otedama.Engine
