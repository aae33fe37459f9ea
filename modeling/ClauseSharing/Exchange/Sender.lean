import ClauseSharing.Exchange.SharedClause

/-!
Sending clauses.

The literals and the trailer of a clause are offered to the stream in one call each. A call that is
served in part, or not at all, fails the sending and is not repeated.
-/

namespace ClauseSharing

/-- The sending end of a stream. -/
structure Sender where
  sink : Sink
  sent : Nat
deriving DecidableEq, Repr

namespace Sender

def ofSink (sink : Sink) : Sender := ⟨sink, 0⟩

/-- Offers bytes in one call, unless there are none. -/
def offer (s : Sender) (bytes : List UInt8) : Sender × Except TransportError Unit :=
  if bytes.isEmpty then (s, .ok ())
  else
    match s.sink.write bytes with
    | (sink, .error fault) => ({ s with sink := sink }, .error (.stream fault))
    | (sink, .ok written) =>
      ({ s with sink := sink },
        if written = bytes.length then .ok ()
        else .error (.partlyTaken bytes.length written))

def send (s : Sender) (c : SharedClause) : Sender × Except TransportError Unit :=
  match s.offer (c.literals.flatMap Word.toBytes) with
  | (s, .error e) => (s, .error e)
  | (s, .ok ()) =>
    match s.offer ([0, c.glue].flatMap Word.toBytes) with
    | (s, .error e) => (s, .error e)
    | (s, .ok ()) => ({ s with sent := s.sent + 1 }, .ok ())

def flush (s : Sender) : Sender × Except TransportError Unit :=
  match s.sink.flush with
  | (sink, .error fault) => ({ s with sink := sink }, .error (.stream fault))
  | (sink, .ok ()) => ({ s with sink := sink }, .ok ())

end Sender

end ClauseSharing
