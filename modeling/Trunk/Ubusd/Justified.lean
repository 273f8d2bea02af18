import Trunk.Ubusd.Addressed
import Trunk.Ubusd.Runs

/-! # Who is sent what

A client is sent the answers to its own messages, what the owner of an object answers to its calls,
and messages about its own objects (`Trunk.Ubusd.Justified`). So no client is told about an object
of another one, none is answered for an object that the answering client does not own, and none is
called in the name of somebody else, whatever the clients do (`Trunk.Ubusd.Runs.justified`).
-/

namespace Trunk.Ubusd

variable {blobmsg : Payload → Table} {registry registry' : Registry} {daemon daemon' : Daemon}
  {wire wire' wire'' : Wire} {cl id : Nat} {ub : Message} {attr : Attr} {ret : Option Status}

/-- Why a client is sent a message while an input is served. -/
inductive Justified (registry : Registry) : Input → Nat × Message → Prop
  | hello (cl : Nat) : Justified registry .connect (cl, ⟨.hello, 0, cl, []⟩)
  | answer (cl : Nat) (ub : Message) (type : MsgType) (data : List Field)
      (kind : type = .status ∨ type = .data) :
      Justified registry (.receive cl ub) (cl, ⟨type, ub.seq, ub.peer, data⟩)
  | response (cl id : Nat) (ub : Message) (kind : ub.type = .status ∨ ub.type = .data)
      (named : (ubusParseMsg ub.data).objid = some id)
      (own : owner registry.objects id = some cl) (known : registry.clients ub.peer ≠ none) :
      Justified registry (.receive cl ub) (ub.peer, { ub with peer := id })
  | told (input : Input) (caller : Option Nat) (message : Nat × Message)
      (about : Told registry.objects caller message)
      (name : ∀ cl, caller = some cl → ∃ ub, input = .receive cl ub) :
      Justified registry input message

/-! ### The handlers -/

/-- The messages of an input are justified. -/
abbrev Just (registry : Registry) (input : Input) (wire wire' : Wire) : Prop :=
  Said (Justified registry input) wire wire'

theorem just_of_told {input : Input} (said : Said (Told registry.objects none) wire wire') :
    Just registry input wire wire' :=
  said.mono fun message told => .told input none message told fun _ absurd => by cases absurd

theorem just_same {input : Input} {first : Option Status}
    (handled : some (first, daemon) = some (ret, daemon')) :
    Just registry input daemon.wire daemon'.wire := by
  obtain ⟨_, rfl⟩ := Prod.mk.inj (Option.some.inj handled)
  exact .of_eq rfl

/-- The client is answered. -/
theorem just_answer {place : Option Nat} {type : MsgType} {data : List Field}
    (kind : type = .status ∨ type = .data) (self : place = some cl)
    (sent : ubusMsgSend place ⟨type, ub.seq, ub.peer, data⟩ wire' = some wire'')
    (same : wire'.sent = wire.sent) : Just registry (.receive cl ub) wire wire'' := by
  refine said_ubusMsgSend sent same ?_
  intro other known
  obtain rfl := Option.some.inj (self.symm.trans known)
  exact .answer cl ub type data kind

theorem ubusdSendPong_just (handled : ubusdSendPong daemon cl ub = some (ret, daemon')) :
    Just registry (.receive cl ub) daemon.wire daemon'.wire := by
  rw [ubusdSendPong] at handled
  obtain ⟨wire, sent, last⟩ := Option.bind_eq_some_iff.mp handled
  obtain ⟨_, rfl⟩ := Prod.mk.inj (Option.some.inj last)
  exact just_answer (.inr rfl) rfl sent rfl

theorem ubusdHandleRemoveObject_just
    (handled : ubusdHandleRemoveObject daemon cl ub attr = some (ret, daemon')) :
    Just daemon.registry (.receive cl ub) daemon.wire daemon'.wire := by
  rw [ubusdHandleRemoveObject] at handled
  cases named : attr.objid with
  | none =>
      rw [named] at handled
      exact just_same handled
  | some id =>
      rw [named] at handled
      dsimp only at handled
      cases found : daemon.registry.objects id with
      | none =>
          rw [found] at handled
          exact just_same handled
      | some obj =>
          rw [found] at handled
          dsimp only at handled
          split at handled
          · exact just_same handled
          · obtain ⟨freed, gone, handled⟩ := Option.bind_eq_some_iff.mp handled
            obtain ⟨wire, sent, last⟩ := Option.bind_eq_some_iff.mp handled
            obtain ⟨_, rfl⟩ := Prod.mk.inj (Option.some.inj last)
            have said := (ubusdFreeObject_decent gone).said
            exact (Said.of_eq rfl).trans ((just_of_told said).trans
              (just_answer (.inr rfl) rfl sent rfl))

theorem ubusdHandleAddObject_just
    (handled : ubusdHandleAddObject daemon cl ub attr = some (ret, daemon')) :
    Just daemon.registry (.receive cl ub) daemon.wire daemon'.wire := by
  obtain ⟨⟨place, created⟩, made, handled⟩ := Option.bind_eq_some_iff.mp handled
  have said := @just_of_told daemon.registry _ _ (.receive cl ub) (ubusdCreateObject_told made)
  cases place with
  | none =>
      obtain ⟨_, rfl⟩ := Prod.mk.inj (Option.some.inj handled)
      exact said
  | some id =>
      obtain ⟨obj, _, handled⟩ := Option.bind_eq_some_iff.mp handled
      dsimp only at handled
      cases signature : attr.signature with
      | none =>
          rw [signature] at handled
          obtain ⟨b, _, handled⟩ := Option.bind_eq_some_iff.mp handled
          obtain ⟨wire, sent, last⟩ := Option.bind_eq_some_iff.mp handled
          obtain ⟨_, rfl⟩ := Prod.mk.inj (Option.some.inj last)
          exact said.trans (just_answer (.inr rfl) rfl sent rfl)
      | some sig =>
          rw [signature] at handled
          obtain ⟨b, _, handled⟩ := Option.bind_eq_some_iff.mp handled
          obtain ⟨wire, sent, last⟩ := Option.bind_eq_some_iff.mp handled
          obtain ⟨_, rfl⟩ := Prod.mk.inj (Option.some.inj last)
          exact said.trans (just_answer (.inr rfl) rfl sent rfl)

theorem ubusdSendObj_just (sent : ubusdSendObj registry' cl ub id wire = some wire') :
    Just registry (.receive cl ub) wire wire' := by
  obtain ⟨obj, _, sent⟩ := Option.bind_eq_some_iff.mp sent
  obtain ⟨type, _, sent⟩ := Option.bind_eq_some_iff.mp sent
  obtain ⟨known, _, sent⟩ := Option.bind_eq_some_iff.mp sent
  exact just_answer (.inr rfl) rfl sent rfl

theorem lookupLoop_just {objpath : Text} {path : List (Text × Nat)} {found found' : Bool}
    (ran : lookupLoop registry' cl ub objpath path found wire = some (found', wire')) :
    Just registry (.receive cl ub) wire wire' := by
  rw [lookupLoop_eq] at ran
  obtain ⟨last, loop, same⟩ := Option.map_eq_some_iff.mp ran
  obtain ⟨_, rfl⟩ := Prod.mk.inj same
  exact Run.foldlM_invariant (fun _ _ _ _ before sent => before.trans (ubusdSendObj_just sent))
    (Said.of_eq rfl) loop

theorem ubusdHandleLookup_just
    (handled : ubusdHandleLookup daemon cl ub attr = some (ret, daemon')) :
    Just registry (.receive cl ub) daemon.wire daemon'.wire := by
  rw [ubusdHandleLookup] at handled
  cases asked : attr.objpath with
  | none =>
      rw [asked] at handled
      obtain ⟨wire, ran, last⟩ := Option.bind_eq_some_iff.mp handled
      obtain ⟨_, rfl⟩ := Prod.mk.inj (Option.some.inj last)
      exact Run.foldlM_invariant (fun _ _ _ _ before sent => before.trans (ubusdSendObj_just sent))
        (Said.of_eq rfl) ran
  | some objpath =>
      rw [asked] at handled
      dsimp only at handled
      split at handled
      · cases found : daemon.registry.path.find? fun entry => decide (entry.1 = objpath) with
        | none =>
            rw [found] at handled
            exact just_same handled
        | some entry =>
            rw [found] at handled
            obtain ⟨wire, sent, last⟩ := Option.bind_eq_some_iff.mp handled
            obtain ⟨_, rfl⟩ := Prod.mk.inj (Option.some.inj last)
            exact ubusdSendObj_just sent
      · obtain ⟨⟨found, wire⟩, ran, last⟩ := Option.bind_eq_some_iff.mp handled
        obtain ⟨_, rfl⟩ := Prod.mk.inj (Option.some.inj last)
        exact lookupLoop_just ran

/-- A call goes to the owner of the object, with the client as its peer. -/
theorem ubusdForwardInvoke_just {method : Text} {data : Option Payload} {b : List Field}
    (plain : b = [] ∨ b = [.noReply true])
    (sent : ubusdForwardInvoke registry id method { ub with peer := cl } data wire' = some wire'')
    (full : wire'.b = b) (same : wire'.sent = wire.sent) :
    Just registry (.receive cl ub) wire wire'' := by
  obtain ⟨obj, found, sent⟩ := Option.bind_eq_some_iff.mp sent
  refine said_ubusMsgSend sent same ?_
  intro other client
  refine .told _ (some cl) _ ⟨.inl rfl, .inr rfl, id, ?_, ?_⟩ ?_
  · dsimp only
    rw [full]
    rcases plain with rfl | rfl
    · cases data with
      | none => rfl
      | some payload => rfl
    · cases data with
      | none => rfl
      | some payload => rfl
  · rw [owner, found, Option.bind_some, client]
  · rintro _ ⟨rfl⟩
    exact ⟨ub, rfl⟩

theorem just_status {input : Input} {first status : Status}
    (handled : some (first, daemon) = some (status, daemon')) :
    Just registry input daemon.wire daemon'.wire := by
  obtain ⟨_, rfl⟩ := Prod.mk.inj (Option.some.inj handled)
  exact .of_eq rfl

theorem ubusdEventRecv_just {input : Input} {method : Text} {msg : Option Payload} {status : Status}
    (handled : ubusdEventRecv blobmsg daemon cl method msg = some (status, daemon')) :
    Just daemon.registry input daemon.wire daemon'.wire := by
  rw [ubusdEventRecv] at handled
  split at handled
  · obtain ⟨payload, rfl, same⟩ := Option.map_eq_some_iff.mp handled
    refine .of_eq ?_
    have registered := congrArg (fun result => result.2.wire.sent) same
    rw [← registered, ubusdAllocEventPattern]
    cases (blobmsg payload).object with
    | none => rfl
    | some id =>
        cases (blobmsg payload).pattern with
        | none => rfl
        | some pattern =>
            dsimp only
            split
            · rfl
            · cases daemon.registry.objects id with
              | none => rfl
              | some obj =>
                  dsimp only
                  split
                  · rfl
                  · rfl
  · split at handled
    · obtain ⟨payload, rfl, forwarded⟩ := Option.bind_eq_some_iff.mp handled
      rw [ubusdForwardEvent.eq_def] at forwarded
      cases name : (blobmsg payload).id with
      | none =>
          rw [name] at forwarded
          exact just_status forwarded
      | some key =>
          cases body : (blobmsg payload).data with
          | none =>
              rw [name, body] at forwarded
              exact just_status forwarded
          | some data =>
              rw [name, body] at forwarded
              dsimp only at forwarded
              split at forwarded
              · exact just_status forwarded
              · obtain ⟨wire, sent, last⟩ := Option.bind_eq_some_iff.mp forwarded
                obtain ⟨_, rfl⟩ := Prod.mk.inj (Option.some.inj last)
                exact just_of_told (ubusdSendEvent_told sent)
    · exact just_status handled

theorem ubusdHandleInvoke_just
    (handled : ubusdHandleInvoke blobmsg daemon cl ub attr = some (ret, daemon')) :
    Just daemon.registry (.receive cl ub) daemon.wire daemon'.wire := by
  rw [ubusdHandleInvoke] at handled
  cases first : attr.method with
  | none =>
      rw [first] at handled
      exact just_same handled
  | some method =>
      cases second : attr.objid with
      | none =>
          rw [first, second] at handled
          exact just_same handled
      | some id =>
          rw [first, second] at handled
          dsimp only at handled
          cases found : daemon.registry.objects id with
          | none =>
              rw [found] at handled
              exact just_same handled
          | some obj =>
              rw [found] at handled
              dsimp only at handled
              split at handled
              · split at handled
                · obtain ⟨⟨status, next⟩, received, same⟩ := Option.map_eq_some_iff.mp handled
                  obtain ⟨_, rfl⟩ := Prod.mk.inj same
                  exact ubusdEventRecv_just received
                · cases handled
              · obtain ⟨wire, sent, last⟩ := Option.bind_eq_some_iff.mp handled
                obtain ⟨_, rfl⟩ := Prod.mk.inj (Option.some.inj last)
                exact ubusdForwardInvoke_just (.inl rfl) sent rfl rfl

theorem ubusdHandleNotify_just
    (handled : ubusdHandleNotify daemon cl ub attr = some (ret, daemon')) :
    Just daemon.registry (.receive cl ub) daemon.wire daemon'.wire := by
  rw [ubusdHandleNotify] at handled
  cases first : attr.method with
  | none =>
      rw [first] at handled
      exact just_same handled
  | some method =>
      cases second : attr.objid with
      | none =>
          rw [first, second] at handled
          exact just_same handled
      | some id =>
          rw [first, second] at handled
          dsimp only at handled
          cases found : daemon.registry.objects id with
          | none =>
              rw [found] at handled
              exact just_same handled
          | some obj =>
              rw [found] at handled
              dsimp only at handled
              -- Each subscriber is called, whatever was sent before.
              have all : ∀ (b : List Field) (start last : Wire), b = [] ∨ b = [.noReply true] →
                  obj.subscribers.foldlM (fun wire s => ubusdForwardInvoke daemon.registry
                    s.subscriber method { ub with peer := cl } attr.data { wire with b := b })
                    start = some last → Just daemon.registry (.receive cl ub) start last := by
                intro b start last plain ran
                refine Run.foldlM_invariant ?_ (Said.of_eq rfl) ran
                intro s _ _ _ before sent
                exact before.trans (ubusdForwardInvoke_just plain sent rfl rfl)
              split at handled
              · exact just_same handled
              · cases silent : attr.noReply.getD false with
                | true =>
                    simp only [silent, if_true, Option.bind_eq_bind, Option.bind_some] at handled
                    obtain ⟨wire, ran, last⟩ := Option.bind_eq_some_iff.mp handled
                    obtain ⟨_, rfl⟩ := Prod.mk.inj (Option.some.inj last)
                    exact all _ _ _ (.inr rfl) ran
                | false =>
                    simp only [silent, Bool.false_eq_true, if_false] at handled
                    obtain ⟨told, sent, handled⟩ := Option.bind_eq_some_iff.mp handled
                    obtain ⟨wire, ran, last⟩ := Option.bind_eq_some_iff.mp handled
                    obtain ⟨_, rfl⟩ := Prod.mk.inj (Option.some.inj last)
                    exact (just_answer (.inl rfl) rfl sent rfl).trans (all _ _ _ (.inl rfl) ran)

theorem ubusdHandleResponse_just (kind : ub.type = .status ∨ ub.type = .data)
    (handled : ubusdHandleResponse daemon cl ub (ubusParseMsg ub.data) = some (ret, daemon')) :
    Just daemon.registry (.receive cl ub) daemon.wire daemon'.wire := by
  rw [ubusdHandleResponse] at handled
  cases named : (ubusParseMsg ub.data).objid with
  | none =>
      rw [named] at handled
      exact just_same handled
  | some id =>
      rw [named] at handled
      dsimp only at handled
      split at handled
      · exact just_same handled
      · cases found : daemon.registry.objects id with
        | none =>
            rw [found] at handled
            exact just_same handled
        | some obj =>
            rw [found] at handled
            dsimp only at handled
            split at handled
            · exact just_same handled
            · rename_i served
              rw [not_or, not_ne_iff] at served
              obtain ⟨wire, sent, last⟩ := Option.bind_eq_some_iff.mp handled
              obtain ⟨_, rfl⟩ := Prod.mk.inj (Option.some.inj last)
              refine said_ubusMsgSend sent rfl ?_
              rintro _ ⟨rfl⟩
              exact .response cl id ub kind named
                (by rw [owner, found, Option.bind_some, served.1]) served.2

theorem ubusdHandleAddWatch_just
    (handled : ubusdHandleAddWatch daemon cl attr = some (ret, daemon')) :
    Just daemon.registry (.receive cl ub) daemon.wire daemon'.wire := by
  rw [ubusdHandleAddWatch] at handled
  cases first : attr.objid with
  | none =>
      rw [first] at handled
      exact just_same handled
  | some id =>
      cases second : attr.target with
      | none =>
          rw [first, second] at handled
          exact just_same handled
      | some target =>
          rw [first, second] at handled
          dsimp only at handled
          cases found : daemon.registry.objects id with
          | none =>
              rw [found] at handled
              exact just_same handled
          | some obj =>
              rw [found] at handled
              dsimp only at handled
              split at handled
              · exact just_same handled
              · cases there : daemon.registry.objects target with
                | none =>
                    rw [there] at handled
                    exact just_same handled
                | some other =>
                    rw [there] at handled
                    dsimp only at handled
                    split at handled
                    · exact just_same handled
                    · obtain ⟨next, subscribed, last⟩ := Option.bind_eq_some_iff.mp handled
                      obtain ⟨_, rfl⟩ := Prod.mk.inj (Option.some.inj last)
                      exact just_of_told (ubusSubscribe_decent subscribed).said

theorem ubusdHandleRemoveWatch_just
    (handled : ubusdHandleRemoveWatch daemon cl attr = some (ret, daemon')) :
    Just daemon.registry (.receive cl ub) daemon.wire daemon'.wire := by
  rw [ubusdHandleRemoveWatch] at handled
  cases first : attr.objid with
  | none =>
      rw [first] at handled
      exact just_same handled
  | some id =>
      cases second : attr.target with
      | none =>
          rw [first, second] at handled
          exact just_same handled
      | some target =>
          rw [first, second] at handled
          dsimp only at handled
          cases found : daemon.registry.objects id with
          | none =>
              rw [found] at handled
              exact just_same handled
          | some obj =>
              rw [found] at handled
              dsimp only at handled
              split at handled
              · exact just_same handled
              · cases listed : obj.targetList.find? fun s => decide (s.target = target) with
                | none =>
                    rw [listed] at handled
                    exact just_same handled
                | some s =>
                    rw [listed] at handled
                    obtain ⟨next, gone, last⟩ := Option.bind_eq_some_iff.mp handled
                    obtain ⟨_, rfl⟩ := Prod.mk.inj (Option.some.inj last)
                    exact just_of_told (ubusUnsubscribe_decent gone).said

theorem handler_just (handled : handler blobmsg daemon cl ub = some (ret, daemon')) :
    Just daemon.registry (.receive cl ub) daemon.wire daemon'.wire := by
  rw [handler] at handled
  cases type : ub.type with
  | hello =>
      rw [type] at handled
      exact just_same handled
  | status =>
      rw [type] at handled
      exact ubusdHandleResponse_just (.inl type) handled
  | data =>
      rw [type] at handled
      exact ubusdHandleResponse_just (.inr type) handled
  | ping =>
      rw [type] at handled
      exact ubusdSendPong_just handled
  | lookup =>
      rw [type] at handled
      exact ubusdHandleLookup_just handled
  | invoke =>
      rw [type] at handled
      exact ubusdHandleInvoke_just handled
  | addObject =>
      rw [type] at handled
      exact ubusdHandleAddObject_just handled
  | removeObject =>
      rw [type] at handled
      exact ubusdHandleRemoveObject_just handled
  | subscribe =>
      rw [type] at handled
      exact ubusdHandleAddWatch_just handled
  | unsubscribe =>
      rw [type] at handled
      exact ubusdHandleRemoveWatch_just handled
  | notify =>
      rw [type] at handled
      exact ubusdHandleNotify_just handled
  | last =>
      rw [type] at handled
      exact just_same handled

/-! ### The daemon -/

theorem step_just {input : Input} (stepped : step blobmsg daemon input = some daemon') :
    Just daemon.registry input daemon.wire daemon'.wire := by
  cases input with
  | connect =>
      rw [step, ubusdProtoNewClient] at stepped
      generalize ubusAllocId (fun id => (daemon.registry.clients id).isSome)
        daemon.registry.random = result at stepped
      obtain ⟨place, random⟩ := result
      cases place with
      | none =>
          obtain rfl := Option.some.inj stepped
          exact .of_eq rfl
      | some id =>
          obtain ⟨wire, sent, last⟩ := Option.bind_eq_some_iff.mp stepped
          obtain rfl := Option.some.inj last
          refine said_ubusMsgSend sent rfl ?_
          rintro _ ⟨rfl⟩
          exact .hello id
  | receive cl ub =>
      obtain ⟨⟨ret, next⟩, handled, rest⟩ := Option.bind_eq_some_iff.mp stepped
      have said := handler_just handled
      cases ret with
      | none =>
          obtain rfl := Option.some.inj rest
          exact said
      | some ret =>
          obtain ⟨wire, sent, last⟩ := Option.bind_eq_some_iff.mp rest
          obtain rfl := Option.some.inj last
          exact said.trans (just_answer (.inl rfl) rfl sent rfl)
  | disconnect cl =>
      obtain ⟨ids, _, stepped⟩ := Option.bind_eq_some_iff.mp stepped
      obtain ⟨freed, ran, last⟩ := Option.bind_eq_some_iff.mp stepped
      obtain rfl := Option.some.inj last
      have decent : Decent daemon.registry.objects daemon.wire freed :=
        Run.foldlM_invariant (fun _ _ _ _ before gone => before.trans (ubusdFreeObject_decent gone))
          (Decent.refl daemon) ran
      exact just_of_told decent.said

end Trunk.Ubusd
