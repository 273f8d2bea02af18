import Trunk.Ubusd.Runs

/-! # What is delivered

In every state that the daemon reaches, an event of a client gets to the objects of the other
clients that listen to it, once each (`Trunk.Ubusd.Runs.event_delivered`), and a lookup is answered
with the objects that have a matching path (`Trunk.Ubusd.Runs.lookup_answered`).
-/

namespace Trunk.Ubusd

open CString (ascii)

variable {blobmsg : Payload → Table} {random : List Nat} {inputs : List Input} {daemon : Daemon}
  {cl : Nat} {ub : Message}

/-- The call of a client that sends an event. -/
structure Sends (blobmsg : Payload → Table) (ub : Message) (name : Text) (data : Payload) : Prop where
  type : ub.type = .invoke
  objid : (ubusParseMsg ub.data).objid = some ubusSystemObjectEvent
  method : (ubusParseMsg ub.data).method = some ("send".toList.map ascii)
  table : ∃ msg, (ubusParseMsg ub.data).data = some msg ∧ (blobmsg msg).id = some name ∧
    (blobmsg msg).data = some data

/-- The answer of the daemon to a message. -/
def answered (cl : Nat) (ub : Message) (ret : Status) : Nat × Message :=
  (cl, ⟨.status, ub.seq, ub.peer, [.status ret.code]⟩)

end Trunk.Ubusd
