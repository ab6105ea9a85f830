import ChainScript.Expr

/-!
When two values are the same. Doubles compare as doubles do, expressions compare with their
places, host objects by identity, and the transients of a deferred value do not count.
-/

namespace ChainScript

mutual

def Expr.same : Expr → Expr → Bool
  | .text s, .text t => s == t
  | .number m, .number n => m.same n
  | .identifier a p, .identifier b q => a == b && p == q
  | .option a p, .option b q => a == b && p == q
  | .deferred d, .deferred e => d.same e
  | .chain ts, .chain us => sameTerms ts us
  | .block d, .block e => d.same e
  | .stub v, .stub w => v.same w
  | _, _ => false
termination_by structural e => e

def sameTerms : List Expr → List Expr → Bool
  | [], [] => true
  | t :: ts, u :: us => t.same u && sameTerms ts us
  | _, _ => false
termination_by structural terms => terms

def Value.same : Value → Value → Bool
  | .empty, .empty => true
  | .placeholder, .placeholder => true
  | .bool a, .bool b => a == b
  | .int a, .int b => a == b
  | .float x, .float y => x == y
  | .text s, .text t => s == t
  | .list vs, .list ws => sameItems vs ws
  | .deferred d _, .deferred e _ => d.same e
  | .host a, .host b => a.identity == b.identity
  | _, _ => false
termination_by structural value => value

def sameItems : List Value → List Value → Bool
  | [], [] => true
  | v :: vs, w :: ws => v.same w && sameItems vs ws
  | _, _ => false
termination_by structural items => items

end

end ChainScript
