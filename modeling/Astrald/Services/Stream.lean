import Mathlib.Data.Finset.Basic
import Mathlib.Data.List.Sort

/-!
# One discovery stream of the services coordinator

The model of `coordinator/stream.go` and `coordinator/writer.go`, and of the part of
`coordinator/attempt.go` that lives in the stream: the views waiting to be sent, the
removals, the view in flight, the initial attempt and the writer `Run`.

Everything here happens under the coordinator lock, one method at a time, so each method
is a function on the stream. Maps keyed by an identity are keyed by what
`Identity.String` gives, as in the source, so an identity is that string. `log` is a history: every
method records what it did and none reads it.
-/

namespace Astrald.Services

structure OfferingKey where
  provider : String
  name : String
  deriving DecidableEq, Repr

def keyOf (provider name : String) : OfferingKey := ⟨provider, name⟩

/-- `services.Update`. `providerID` is `none` for a nil or zero identity. -/
structure Update where
  available : Bool
  name : String
  providerID : Option String
  info : String
  deriving DecidableEq, Repr

inductive Output
  | removed (keys : List OfferingKey)
  | boundary (incomplete : Option (List String))
  | view (key : OfferingKey) (view : Update)
  deriving DecidableEq, Repr

def Output.isBoundary : Output → Bool
  | .boundary _ => true
  | _ => false

/-- What a stream's methods record in its history. -/
inductive Event
  | offered (key : OfferingKey) (view : Update) (queued : Bool)
  | retracted (key : OfferingKey)
  | ended (obligation : ℕ) (service : String)
  | failed (obligation : ℕ) (service : String)
  | expired (obligation : ℕ) (service : String)
  | finished
  | written (out : Output)
  deriving DecidableEq, Repr

/-- Where the stream's writer `Run` stands: about to take the lock, blocked on `wake`,
inside a sink call, or returned. -/
inductive Writer
  | idle
  | waiting
  | writing (out : Output)
  | returned
  deriving DecidableEq, Repr

/-- The initial discovery of one stream. `opened` lists the obligations not yet ended,
`owed` is nil until the attempt finishes. -/
structure Attempt where
  opened : List ℕ := []
  failed : List String := []
  resolved : Bool := false
  owed : Option (Finset OfferingKey) := none

/-- `attempt` is the attempt `DiscoverSwarm` made, which timers and obligations keep
pointing to; `attemptNil` says that the stream's own pointer to it was cleared. -/
structure Stream where
  caller : String
  services : Finset String
  follow : Bool
  visible : Finset OfferingKey := ∅
  pending : OfferingKey → Option Update := fun _ => none
  queue : List OfferingKey := []
  removed : List OfferingKey := []
  inflight : Option OfferingKey := none
  inflightAvailable : Bool := false
  attempt : Attempt := {}
  attemptNil : Bool := false
  remotes : List ℕ := []
  wake : Bool := false
  closed : Bool := false
  writer : Writer := .idle
  log : List Event := []

instance : Inhabited Stream := ⟨{ caller := "", services := ∅, follow := false, closed := true }⟩

namespace Stream

def record (st : Stream) (e : Event) : Stream := { st with log := st.log ++ [e] }

/-- The consumer has seen, or is being sent, an available view of `k`. -/
def shown (st : Stream) (k : OfferingKey) : Bool :=
  if st.inflight = some k then st.inflightAvailable
  else decide (k ∈ st.visible) && !decide (k ∈ st.removed)

/-- `delete(st.attempt.owed, k)` behind its two nil checks. -/
def release (st : Stream) (k : OfferingKey) : Stream :=
  if st.attemptNil then st
  else { st with attempt := { st.attempt with owed := st.attempt.owed.map (·.erase k) } }

/-- Remove an unsent view and release it from the boundary's obligations. -/
def drop (st : Stream) (k : OfferingKey) : Stream :=
  let st' :=
    match st.pending k with
    | none => st
    | some _ => { st with pending := Function.update st.pending k none, queue := st.queue.erase k }
  st'.release k

/-- Replacement of an unsent view, and suppression of a negative that was never introduced. -/
def offer (st : Stream) (k : OfferingKey) (u : Update) : Stream :=
  if u.available || st.shown k then
    { st with
      queue := if (st.pending k).isSome then st.queue else st.queue ++ [k]
      pending := Function.update st.pending k (some u)
      wake := true
      log := st.log ++ [.offered k u true] }
  else { st.drop k with wake := true, log := st.log ++ [.offered k u false] }

/-- Drop any unsent view of `k` and queue a removal when the consumer was shown it. -/
def retract (st : Stream) (k : OfferingKey) : Stream :=
  let st' := st.drop k
  { st' with
    removed := if st.shown k then (if k ∈ st.removed then st.removed else st.removed ++ [k])
      else st.removed
    log := st.log ++ [.retracted k] }

/-- Purge a closed source's views. -/
def lose (st : Stream) (provider : String) (names : List String) : Stream :=
  if st.closed then st
  else
    let st' := (names.filter (· ∈ st.services)).foldl (fun s name => s.retract (keyOf provider name)) st
    { st' with wake := true }

/-- `attempt.finish`: freeze what the boundary owes, the views pending or in flight now. -/
def finish (st : Stream) : Stream :=
  { st with
    attempt := { st.attempt with
      resolved := true
      owed := some (st.queue.toFinset ∪ st.inflight.toList.toFinset) }
    wake := true
    log := st.log ++ [.finished] }

def markFailed (st : Stream) (service : String) : Stream :=
  { st with attempt := { st.attempt with failed := st.attempt.failed.insert service } }

def deleteOpen (st : Stream) (o : ℕ) : Stream :=
  { st with attempt := { st.attempt with opened := st.attempt.opened.erase o } }

def incomplete (at' : Attempt) : Option (List String) :=
  if at'.failed = [] then none else some (at'.failed.insertionSort (· ≤ ·))

/-- The order `next` sends removals in. -/
def keyLE (a b : OfferingKey) : Bool :=
  a.provider ++ "\x00" ++ a.name ≤ b.provider ++ "\x00" ++ b.name

/-- Pick what to send: removals, then the boundary once nothing owed is left, then views in
first-pending order. `none` is `outNone`; a queued key always has its view. -/
def next (st : Stream) : Stream × Option Output :=
  if st.removed ≠ [] then (st, some (.removed (st.removed.insertionSort (keyLE · ·))))
  else if !st.attemptNil && st.attempt.resolved && decide (st.attempt.owed.getD ∅ = ∅) then
    (st, some (.boundary (incomplete st.attempt)))
  else
    match st.queue with
    | [] => (st, none)
    | k :: rest =>
      match st.pending k with
      | none => (st, none)
      | some v =>
        ({ st with
            queue := rest
            pending := Function.update st.pending k none
            inflight := some k
            inflightAvailable := v.available }, some (.view k v))

/-- `sent` up to the `closeLocked` a one-shot boundary ends with, which is the coordinator's. -/
def sent (st : Stream) : Output → Stream
  | .removed keys =>
    { st with
      removed := st.removed.filter (· ∉ keys)
      visible := st.visible \ keys.toFinset
      log := st.log ++ [.written (.removed keys)] }
  | .view k v =>
    let st' := { st with visible := if v.available then insert k st.visible else st.visible.erase k }
    { st'.release k with inflight := none, log := st.log ++ [.written (.view k v)] }
  | .boundary inc =>
    { st with attemptNil := true, log := st.log ++ [.written (.boundary inc)] }

/-- The stream's own part of `closeLocked`: the unsent views go and the writer is woken. -/
def shut (st : Stream) : Stream :=
  { st with closed := true, pending := fun _ => none, queue := [], wake := true }

/-- One turn of `Run` up to its sink call. -/
def runTurn (st : Stream) : Stream :=
  if st.closed then { st with writer := .returned }
  else
    match st.next with
    | (st', none) => { st' with writer := .waiting }
    | (st', some out) => { st' with writer := .writing out }

end Stream

end Astrald.Services
