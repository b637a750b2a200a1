import Hadar.Analysis.Mailbox
import Hadar.Analysis.Waiting

/-!
# Nobody is forgotten

While the log is open and its thread lives, a caller that awaits an answer has it, or its message
is where the thread will come to it. The one message the thread drops is a checkpoint that a later
one takes the place of, and nobody awaits that one: a checkpoint takes the log alone, so the later
one was asked for only once the earlier caller had gone.
-/

set_option autoImplicit false

namespace Hadar.Wal

open Hadar.Lib Hadar.Lib.Prog Hadar.Storage Hadar.Mvcc

variable {base log : List Mutation} {s s' s₀ : System} {history : List (Mark Ask Outcome)}
  {order : List (Effect Ask Outcome)} {phase : ℕ → Phase Ask Outcome} {interval id : ℕ}

/-! ## Who is attended to -/

/-- Whether a message waits for its answer where the thread comes to it. -/
def Comes (flying : List Message) : Message → Prop
  | .write respond request => .write respond request ∈ flying
  | .checkpoint respond => (checkpointsOf flying).getLast? = some respond

/-- A call that is to take a checkpoint, or takes it. -/
def Place.checkpoints : Place → Bool
  | .sending (.checkpoint _) | .awaiting (.checkpoint _) => true
  | _ => false

/-- Everybody who waits is attended to, a checkpoint has the log to itself, and nobody is told
that the log is shut down. -/
structure Attended (s : System) (history : List (Mark Ask Outcome)) : Prop where
  attended : ∀ id message, s.places id = some (.awaiting message) →
    Comes s.inFlight message ∨ (message.answer s.thread.deeds).isSome = true
  alone : ∀ id place, s.places id = some place → place.checkpoints = true →
    s.loan = .checkpoint id
  told : ∀ id outcome, s.places id = some (.told outcome) → outcome.isShutdown = false
  answers : ∀ (message : Message) outcome, message.answer s.thread.deeds = some outcome →
    outcome.isShutdown = false
  returned : ∀ id outcome, .returned id outcome ∈ history → outcome.isShutdown = false

theorem mem_of_comes {flying : List Message} {message : Message} (h : Comes flying message) :
    ∃ m ∈ flying, m.respond = message.respond := by
  cases message with
  | write respond request => exact ⟨_, h, rfl⟩
  | checkpoint respond => exact ⟨_, mem_checkpointsOf.mp (List.mem_of_getLast? h), rfl⟩

/-! ## The thread's steps -/

theorem checkpointsOf_messages (pending : Pending) :
    checkpointsOf pending.messages = pending.requested.toList := by
  have hwrites : ∀ batch : List (ℕ × Request),
      checkpointsOf (batch.map fun b => .write b.1 b.2) = [] := fun batch =>
    List.filterMap_eq_nil_iff.mpr fun m hm => by
      obtain ⟨b, -, rfl⟩ := List.mem_map.mp hm
      rfl
  rw [Pending.messages, checkpointsOf_append, hwrites, List.append_nil]
  cases pending.requested <;> rfl

/-- The thread comes to what it took in, be it in the place of an earlier checkpoint. -/
theorem comes_receive {pending : Pending} {received message : Message} {rest : List Message}
    (h : Comes (pending.messages ++ received :: rest) message) :
    Comes ((pending.receive received).messages ++ rest) message := by
  cases message with
  | write respond request =>
    cases received with
    | write respond' request' =>
      simpa [Comes, Pending.receive, Pending.messages, or_assoc] using h
    | checkpoint respond' =>
      simpa [Comes, Pending.receive, Pending.messages] using h
  | checkpoint respond =>
    rw [Comes, checkpointsOf_append, checkpointsOf_messages] at h ⊢
    cases received with
    | write respond' request' => exact h
    | checkpoint respond' =>
      have hafter : checkpointsOf (.checkpoint respond' :: rest) = respond' :: checkpointsOf rest :=
        rfl
      rw [hafter, List.getLast?_append_cons] at h
      exact h

/-- The thread's deeds go on, and it comes to everybody it came to before, or answers. -/
theorem Attended.thread (h : Attended s history) (more : List Deed) (hplaces : s'.places = s.places)
    (hloan : s'.loan = s.loan) (hdeeds : s'.thread.deeds = s.thread.deeds ++ more)
    (hcomes : ∀ message, Comes s.inFlight message →
      Comes s'.inFlight message ∨ (message.answer more).isSome = true)
    (hanswers : ∀ (message : Message) outcome, message.answer more = some outcome →
      outcome.isShutdown = false) : Attended s' history := by
  refine ⟨fun id message hplace => ?_, ?_, ?_, fun message outcome hanswer => ?_, h.returned⟩
  · rw [hplaces] at hplace
    rw [hdeeds, answer_append, Option.isSome_or, Bool.or_eq_true]
    rcases h.attended id message hplace with hin | hsome
    · exact (hcomes message hin).imp_right .inr
    · exact .inr (.inl hsome)
  · rw [hplaces, hloan]
    exact h.alone
  · rw [hplaces]
    exact h.told
  · rw [hdeeds, answer_append] at hanswer
    rcases Option.or_eq_some_iff.mp hanswer with hbefore | ⟨-, hafter⟩
    · exact h.answers message outcome hbefore
    · exact hanswers message outcome hafter

theorem answer_nil (message : Message) : message.answer [] = none := rfl

/-- Whoever is in a batch is answered. -/
theorem isSome_answer_zip {ids : List ℕ} {results : List (Except Error (List Revision))}
    (hlength : ids.length ≤ results.length) {respond : ℕ} (h : respond ∈ ids) (request : Request) :
    ((Message.write respond request).answer
      ((ids.zip results).map fun p => .answered p.1 p.2)).isSome = true := by
  induction ids generalizing results with
  | nil => exact absurd h List.not_mem_nil
  | cons first rest ih =>
    cases results with
    | nil => exact absurd hlength (Nat.not_succ_le_zero _)
    | cons result results =>
      rw [List.zip_cons_cons, List.map_cons, ← List.singleton_append, answer_append,
        Option.isSome_or, Bool.or_eq_true]
      rcases List.mem_cons.mp h with rfl | h
      · exact .inl (by simp [Message.answer, Deed.tells])
      · exact .inr (ih (Nat.le_of_succ_le_succ hlength) h)

/-- What a batch is answered with is one of its results. -/
theorem mem_of_answer_answered {message : Message} {outcome : Outcome}
    {answers : List (ℕ × Except Error (List Revision))}
    (h : message.answer (answers.map fun p => .answered p.1 p.2) = some outcome) :
    ∃ p ∈ answers, outcome = .write p.2 := by
  obtain ⟨d, hd, htells⟩ := List.exists_of_findSome?_eq_some h
  obtain ⟨p, hp, rfl⟩ := List.mem_map.mp hd
  refine ⟨p, hp, ?_⟩
  cases message with
  | write respond request =>
    simp only [Deed.tells, Option.ite_none_right_eq_some, Option.some.injEq] at htells
    exact htells.2.symm
  | checkpoint respond => cases htells

/-- No result of a batch says that the log is shut down. -/
theorem isShutdown_of_mem_answer {batch : List Request} {outcome : Except Error (List Revision)}
    (h : ∀ e, outcome = .error e → e.Open) {result : Except Error (List Revision)}
    (hresult : result ∈ answer batch outcome) : (Outcome.write result).isShutdown = false := by
  induction batch generalizing outcome with
  | nil => exact absurd hresult List.not_mem_nil
  | cons request rest ih =>
    cases outcome with
    | ok revisions =>
      have hopen : ∀ e, (.ok (revisions.drop request.mutations.length) :
          Except Error (List Revision)) = .error e → e.Open := nofun
      rcases List.mem_cons.mp hresult with rfl | hresult
      · rfl
      · exact ih hopen hresult
    | error e =>
      rcases List.mem_cons.mp hresult with rfl | hresult
      · cases e with
        | shutdown => exact absurd rfl (h _ rfl)
        | apply | io | corrupt | truncated => rfl
      · exact ih h hresult

section Advance

variable [Crc32]

omit [Crc32] in
theorem Attended.taking (h : Attended s history) {pending : Pending} {message : Message}
    {rest : List Message} (hstage : s.stage.messages = pending.messages)
    (hqueue : s.queue = message :: rest) : Attended (s.taking pending message rest) history := by
  refine h.thread [.received message] rfl rfl rfl
    (fun waiting hin => .inl ?_) fun waiting outcome hanswer => ?_
  · rw [System.inFlight, hstage, hqueue] at hin
    exact comes_receive hin
  · cases hanswer

/-- Retiring a batch answers its callers, and leaves the others where they were.
SOURCE: crates/wal/src/writer.rs:154-157, 211-226 -/
theorem Attended.retiring (h : Attended s history)
    (hconsistent : Consistent base s history order phase log) {pending : Pending}
    (hstage : s.stage = .collected pending)
    (hcrashed : (s.after (.retired pending.requested)
      (retireBatch pending.batch)).stage.isCrashed = false)
    (hover : (s.after (.retired pending.requested)
      (retireBatch pending.batch)).stage.isOver = false) :
    Attended (s.after (.retired pending.requested) (retireBatch pending.batch)) history := by
  have hends := ends_retireBatch_tracks hconsistent.tracks pending.batch
  unfold System.after at hcrashed hover ⊢
  rcases hexec : (retireBatch pending.batch).exec s.thread with ⟨(e | _ | _) | ⟨⟩, t'⟩ <;>
    rw [hexec] at hcrashed hover
  · cases hover
  · cases hover
  · cases hcrashed
  · obtain ⟨log', -, hdisposed⟩ := hends.of_ok hexec
    have hflying : s.inFlight = pending.messages ++ s.queue := by
      rw [System.inFlight, hstage]
      rfl
    -- a write of the batch is answered, and everything else is still to come
    have hcomes : ∀ (outcome : Except Error (List Revision)) (message : Message),
        Comes s.inFlight message →
        Comes (pending.requested.toList.map .checkpoint ++ s.queue) message ∨
          (message.answer (.retired pending.batch outcome ::
            (answersOf pending.batch outcome).map fun p => .answered p.1 p.2)).isSome = true := by
      intro outcome message hin
      rw [hflying] at hin
      cases message with
      | write respond request =>
        rw [Comes, Pending.messages, List.append_assoc, List.mem_append, List.mem_append] at hin
        rcases hin with hin | hin | hin
        · exact .inl (List.mem_append_left _ hin)
        · right
          obtain ⟨b, hb, heq⟩ := List.mem_map.mp hin
          cases heq
          rw [← List.singleton_append, answer_append, Option.isSome_or, Bool.or_eq_true]
          refine .inr (isSome_answer_zip ?_ (List.mem_map_of_mem hb) _)
          rw [length_answer, List.length_map, List.length_map]
        · exact .inl (List.mem_append_right _ hin)
      | checkpoint respond =>
        left
        rw [Comes, checkpointsOf_append, checkpointsOf_messages] at hin
        rw [Comes, checkpointsOf_append,
          show checkpointsOf (pending.requested.toList.map .checkpoint) = pending.requested.toList by
            cases pending.requested <;> rfl]
        exact hin
    have hanswers : ∀ (outcome : Except Error (List Revision)), (∀ e, outcome = .error e → e.Open) →
        ∀ (message : Message) told, message.answer (.retired pending.batch outcome ::
          (answersOf pending.batch outcome).map fun p => .answered p.1 p.2) = some told →
        told.isShutdown = false := by
      intro outcome hopen message told hanswer
      rw [← List.singleton_append, answer_append,
        show message.answer [.retired pending.batch outcome] = none by cases message <;> rfl,
        Option.none_or] at hanswer
      obtain ⟨p, hp, rfl⟩ := mem_of_answer_answered hanswer
      exact isShutdown_of_mem_answer hopen (List.of_mem_zip hp).2
    cases hdisposed with
    | nothing hempty =>
      refine h.thread _ rfl rfl (List.append_nil _).symm (fun message hin => ?_)
        fun message told hanswer => ?_
      · refine (hcomes (.ok []) message hin).imp_right fun hsome => ?_
        rw [hempty] at hsome
        cases message <;> cases hsome
      · rw [answer_nil] at hanswer
        cases hanswer
    | applied outcome hrevisions hdeeds hkeys =>
      refine h.thread _ rfl rfl hdeeds (hcomes _) (hanswers _ fun e' heq => ?_)
      cases heq
    | failed e hopen hdeeds =>
      refine h.thread _ rfl rfl hdeeds (hcomes _) (hanswers _ fun e' heq => ?_)
      cases heq
      exact hopen

omit [Crc32] in
/-- Taking a checkpoint answers the one who asked last, who is the only one to wait.
SOURCE: crates/wal/src/writer.rs:159-170 -/
theorem Attended.checkpointing (h : Attended s history)
    (hconsistent : Consistent base s history order phase log) {requested : Option ℕ}
    (hstage : s.stage = .retired requested)
    (hcrashed : (s.after .receiving (checkpointIfDue interval requested)).stage.isCrashed = false)
    (hover : (s.after .receiving (checkpointIfDue interval requested)).stage.isOver = false) :
    Attended (s.after .receiving (checkpointIfDue interval requested)) history := by
  have hends := ends_checkpointIfDue_tracks interval hconsistent.tracks requested
  unfold System.after at hcrashed hover ⊢
  rcases hexec : (checkpointIfDue interval requested).exec s.thread with
    ⟨(e | _ | _) | ⟨⟩, t'⟩ <;> rw [hexec] at hcrashed hover
  · cases hover
  · cases hover
  · cases hcrashed
  · obtain ⟨-, hnoted⟩ := hends.of_ok hexec
    have hflying : s.inFlight = requested.toList.map .checkpoint ++ s.queue := by
      rw [System.inFlight, hstage]
      rfl
    cases requested with
    | none =>
      obtain ⟨more, hnone, hdeeds⟩ : ∃ more : List Deed,
          (∀ message : Message, message.answer more = none) ∧
            t'.deeds = s.thread.deeds ++ more := by
        rcases hnoted with hdeeds | ⟨outcome, hdeeds⟩
        · exact ⟨[], fun _ => rfl, hdeeds.trans (List.append_nil _).symm⟩
        · exact ⟨[.compacted outcome], fun message => by cases message <;> rfl, hdeeds⟩
      refine h.thread _ rfl rfl hdeeds (fun message hin => .inl ?_) fun message told hanswer => ?_
      · rwa [hflying] at hin
      · rw [hnone message] at hanswer
        cases hanswer
    | some respond =>
      obtain ⟨outcome, hopen, hdeeds⟩ := hnoted
      refine h.thread _ rfl rfl hdeeds (fun message hin => ?_) fun message told hanswer => ?_
      · rw [hflying] at hin
        cases message with
        | write respond' request =>
          left
          rcases List.mem_append.mp hin with hin | hin
          · obtain ⟨r, -, heq⟩ := List.mem_map.mp hin
            cases heq
          · exact hin
        | checkpoint respond' =>
          have hlast : (respond :: checkpointsOf s.queue).getLast? = some respond' := hin
          rcases List.eq_nil_or_concat (checkpointsOf s.queue) with hnil | ⟨front, last, hconcat⟩
          · right
            rw [hnil] at hlast
            cases hlast
            simp [Message.answer, List.findSome?, Deed.tells]
          · left
            rw [hconcat, List.concat_eq_append, ← List.cons_append, List.getLast?_concat] at hlast
            show (checkpointsOf s.queue).getLast? = some respond'
            rw [hconcat, List.concat_eq_append, List.getLast?_concat, hlast]
      · cases message with
        | write respond' request => cases hanswer
        | checkpoint respond' =>
          simp only [Message.answer, List.findSome?, Deed.tells] at hanswer
          split at hanswer
          · rename_i heq
            split at heq <;> cases heq
            cases hanswer
            rcases outcome with (_ | _ | _ | _ | _) | removed
            · exact absurd rfl (hopen _ rfl)
            all_goals rfl
          · cases hanswer

/-- A step of the thread, while the log is open.
SOURCE: crates/wal/src/writer.rs:126-172 -/
theorem Attended.advance (h : Attended s history)
    (hconsistent : Consistent base s history order phase log) (hclosed : s.closed = false)
    (hadvance : s.advance interval = some s') (hcrashed : s'.stage.isCrashed = false)
    (hover : s'.stage.isOver = false) : Attended s' history := by
  have hidle : ∀ stage : Stage, s.stage.messages = stage.messages →
      Attended { s with stage := stage } history := fun stage hstage =>
    h.thread [] rfl rfl (List.append_nil _).symm
      (fun message hin => .inl (by rwa [System.inFlight, hstage] at hin))
      fun message told hanswer => nomatch hanswer
  unfold System.advance at hadvance
  split at hadvance
  · rename_i hstage
    split at hadvance
    · rename_i message rest hqueue
      cases hadvance
      exact h.taking (by rw [hstage]; rfl) hqueue
    · rw [if_neg (by rw [hclosed]; exact Bool.false_ne_true)] at hadvance
      cases hadvance
  · rename_i pending hstage
    split at hadvance
    · split at hadvance
      · rename_i message rest hqueue
        cases hadvance
        exact h.taking (by rw [hstage]; rfl) hqueue
      · cases hadvance
        exact hidle (.collected pending) (by rw [hstage]; rfl)
    · cases hadvance
      exact hidle (.collected pending) (by rw [hstage]; rfl)
  · rename_i pending hstage
    cases hadvance
    exact h.retiring hconsistent hstage hcrashed hover
  · rename_i requested hstage
    cases hadvance
    exact h.checkpointing hconsistent hstage hcrashed hover
  · cases hadvance
  · cases hadvance
  · cases hadvance

end Advance

/-! ## The callers' steps -/

section Callers

/-- A call moves on, but for one that sends its message. -/
theorem Attended.move (h : Attended s history) {loan : Loan} {place : Place}
    {marks : List (Mark Ask Outcome)} (hawaiting : ∀ message, place ≠ .awaiting message)
    (hloan : ∀ j, j ≠ id → s.loan = .checkpoint j → loan = .checkpoint j)
    (hself : place.checkpoints = true → loan = .checkpoint id)
    (htold : ∀ outcome, place = .told outcome → outcome.isShutdown = false)
    (hmarks : ∀ j outcome, .returned j outcome ∈ marks → outcome.isShutdown = false) :
    Attended ({ s with loan := loan }.setPlace id place) (history ++ marks) := by
  refine ⟨fun j message hplace => ?_, fun j place' hplace hcheckpoints => ?_,
    fun j outcome hplace => ?_, h.answers, fun j outcome hmem => ?_⟩
  · by_cases hj : j = id
    · subst hj
      rw [System.places_setPlace_self] at hplace
      exact absurd (Option.some.inj hplace) (hawaiting message)
    · rw [System.places_setPlace_of_ne hj] at hplace
      exact h.attended j message hplace
  · by_cases hj : j = id
    · subst hj
      rw [System.places_setPlace_self] at hplace
      cases hplace
      exact hself hcheckpoints
    · rw [System.places_setPlace_of_ne hj] at hplace
      exact hloan j hj (h.alone j place' hplace hcheckpoints)
  · by_cases hj : j = id
    · subst hj
      rw [System.places_setPlace_self] at hplace
      exact htold outcome (Option.some.inj hplace)
    · rw [System.places_setPlace_of_ne hj] at hplace
      exact h.told j outcome hplace
  · exact (List.mem_append.mp hmem).elim (h.returned j outcome) (hmarks j outcome)

theorem giveBack_of_ne {loan : Loan} {j : ℕ} (h : j ≠ id) (hloan : loan = .checkpoint j) :
    loan.giveBack id = .checkpoint j := by
  rw [hloan, Loan.giveBack, if_neg h]

/-- A call that ends. -/
theorem Attended.give (h : Attended s history) {outcome : Outcome}
    (hopen : outcome.isShutdown = false) :
    Attended (s.giving id outcome).1 (history ++ [.returned id outcome]) :=
  h.move nofun (fun _ hj hloan => giveBack_of_ne hj hloan) nofun nofun fun j outcome' hmem => by
    cases List.mem_singleton.mp hmem
    exact hopen

/-- A call that begins. -/
theorem Attended.call (h : Attended s history) {ask : Ask} {loan : Loan}
    (hlend : s.loan.lend id ask = some loan) :
    Attended ({ s with loan := loan }.setPlace id (ask.first id)) (history ++ [.called id ask]) := by
  have hmarks : ∀ j (outcome : Outcome), .returned j outcome ∈ [Mark.called id ask] →
      outcome.isShutdown = false := fun j outcome hmem => nomatch List.mem_singleton.mp hmem
  rcases ask with (_ | ⟨m, rest⟩) | _ | ⟨bounds, at_, limit⟩
  · refine h.move nofun (fun j _ hloan => ?_) (fun hcheckpoints => ?_) (fun outcome htold => ?_)
      hmarks
    · rw [hloan] at hlend
      cases hlend
    · exact absurd hcheckpoints Bool.false_ne_true
    · cases htold
      rfl
  · refine h.move nofun (fun j _ hloan => ?_) (fun hcheckpoints => ?_) nofun hmarks
    · rw [hloan] at hlend
      cases hlend
    · exact absurd hcheckpoints Bool.false_ne_true
  · refine h.move nofun (fun j _ hloan => ?_) (fun _ => ?_) nofun hmarks
    · rw [hloan] at hlend
      cases hlend
    · dsimp only [Loan.lend] at hlend
      split at hlend <;> cases hlend
      rfl
  · refine h.move nofun (fun j _ hloan => ?_) (fun hcheckpoints => ?_) nofun hmarks
    · cases hlend
      exact hloan
    · exact absurd hcheckpoints Bool.false_ne_true

/-- A message is sent. One that asks for a checkpoint is the last one to do so, as no other caller
has the log. -/
theorem Attended.send (h : Attended s history)
    (hconsistent : Consistent base s history order phase log) {message : Message}
    (hplace : s.places id = some (.sending message)) :
    Attended ({ s with queue := s.queue ++ [message] }.setPlace id (.awaiting message))
      history := by
  have hbefore := hconsistent.progress id
  rw [hplace] at hbefore
  obtain ⟨rfl, -⟩ := hbefore
  have hflying : ({ s with queue := s.queue ++ [message] }.setPlace message.respond
      (.awaiting message)).inFlight = s.inFlight ++ [message] := (List.append_assoc ..).symm
  refine ⟨fun j waiting hwaiting => ?_, fun j place hj hcheckpoints => ?_, fun j outcome htold => ?_,
    h.answers, h.returned⟩
  · rw [hflying]
    by_cases hj : j = message.respond
    · subst hj
      rw [System.places_setPlace_self] at hwaiting
      cases hwaiting
      left
      cases message with
      | write respond request => exact List.mem_append_right _ (List.mem_singleton_self _)
      | checkpoint respond =>
        rw [Comes, checkpointsOf_append]
        exact List.getLast?_concat
    · rw [System.places_setPlace_of_ne hj] at hwaiting
      refine (h.attended j waiting hwaiting).imp_left fun hin => ?_
      have hown := hconsistent.progress j
      rw [show s.places j = some (.awaiting waiting) from hwaiting] at hown
      obtain ⟨rfl, -⟩ := hown
      cases waiting with
      | write respond request => exact List.mem_append_left _ hin
      | checkpoint respond =>
        cases message with
        | write respond' request =>
          rw [Comes, checkpointsOf_append]
          exact (congrArg List.getLast? (List.append_nil _)).trans hin
        | checkpoint respond' =>
          have hloan := h.alone _ _ hwaiting rfl
          rw [h.alone _ _ hplace rfl] at hloan
          exact absurd (Loan.checkpoint.inj hloan).symm hj
  · by_cases hid : j = message.respond
    · subst hid
      rw [System.places_setPlace_self] at hj
      cases hj
      refine h.alone _ _ hplace ?_
      cases message <;> exact hcheckpoints
    · rw [System.places_setPlace_of_ne hid] at hj
      exact h.alone j place hj hcheckpoints
  · by_cases hid : j = message.respond
    · subst hid
      rw [System.places_setPlace_self] at htold
      cases htold
    · rw [System.places_setPlace_of_ne hid] at htold
      exact h.told j outcome htold

/-- A read of the store, in a process that goes on. -/
theorem Attended.read (h : Attended s history) {bounds : Bounds} {at_ limit : Option ℕ}
    {calls : List Storage.Reply}
    (hcrashed : (s.read id bounds at_ limit calls).stage.isCrashed = false) :
    Attended (s.read id bounds at_ limit calls) history := by
  have hstore : ∀ store : KvStore, Attended (s.withStore store) history := fun store =>
    h.thread [] rfl rfl (List.append_nil _).symm (fun _ hin => .inl hin)
      fun _ _ hanswer => nomatch hanswer
  unfold System.read at hcrashed ⊢
  split at hcrashed
  · cases hcrashed
  · rename_i result store hexec hne
    have hmoved : Attended ({ s.withStore store with loan := s.loan }.setPlace id
        (.told (.range result))) (history ++ []) :=
      (hstore store).move nofun (fun _ _ hloan => hloan)
        (fun hcheckpoints => absurd hcheckpoints Bool.false_ne_true)
        (fun outcome htold => by cases htold; rfl) fun _ _ hmem => absurd hmem List.not_mem_nil
    rw [List.append_nil] at hmoved
    exact hmoved

end Callers

/-! ## Every run -/

section Runs

variable [Crc32]

theorem Attended.perform (h : Attended s history)
    (hconsistent : Consistent base s history order phase log) {action : Action}
    {mark : Option (Mark Ask Outcome)} (ran : s.perform interval action = some (s', mark))
    (hclosed : s'.closed = false) (hcrashed : s'.stage.isCrashed = false)
    (hover : s'.stage.isOver = false) (hopen : s.closed = false) (halive : s.stage.isOver = false) :
    Attended s' (history ++ mark.toList) := by
  unfold System.perform at ran
  split at ran
  · cases ran
  cases action with
  | call id ask =>
    dsimp only at ran
    split at ran
    · rename_i loan _ hlend
      cases ran
      exact h.call hlend
    · cases ran
  | send id =>
    dsimp only at ran
    split at ran
    · rename_i message hplace
      rw [if_neg (by rw [hopen, halive]; exact Bool.false_ne_true)] at ran
      split at ran <;> cases ran
      rw [Option.toList_none, List.append_nil]
      exact h.send hconsistent hplace
    · cases ran
  | read id calls =>
    dsimp only at ran
    split at ran <;> cases ran
    rw [Option.toList_none, List.append_nil]
    exact h.read hcrashed
  | ret id =>
    dsimp only at ran
    split at ran
    · rename_i outcome hplace
      cases ran
      exact h.give (h.told id outcome hplace)
    · rename_i message hplace
      split at ran
      · rename_i outcome hanswer
        cases ran
        exact h.give (h.answers message outcome hanswer)
      · rename_i hanswer
        split at ran
        · cases ran
        · rename_i hheld
          -- somebody holds its channel still
          rcases h.attended id message hplace with hcomes | hsome
          · obtain ⟨m, hm, hrespond⟩ := mem_of_comes hcomes
            have hown := hconsistent.progress id
            rw [hplace] at hown
            exact absurd (System.held_iff.mpr ⟨m, hm, hrespond.trans hown.1⟩) hheld
          · rw [hanswer] at hsome
            cases hsome
    · cases ran
  | drop id =>
    dsimp only at ran
    have hdrop : Attended ({ s with loan := s.loan.giveBack id }.setPlace id .dropped)
        (history ++ []) :=
      h.move nofun (fun _ hj hloan => giveBack_of_ne hj hloan)
        (fun hcheckpoints => absurd hcheckpoints Bool.false_ne_true) nofun
        fun _ _ hmem => absurd hmem List.not_mem_nil
    split at ran <;> cases ran <;> exact hdrop
  | shutdown =>
    dsimp only at ran
    split at ran <;> cases ran
    cases hclosed
  | join =>
    dsimp only at ran
    split at ran
    · rw [if_neg (by rw [halive]; exact Bool.false_ne_true)] at ran
      cases ran
    · cases ran
  | advance =>
    obtain ⟨s₁, hadvance, heq⟩ := Option.map_eq_some_iff.mp ran
    cases heq
    rw [Option.toList_none, List.append_nil]
    exact h.advance hconsistent hopen hadvance hcrashed hover

/-- The thread does not close the log, and where it is gone it stays so. -/
theorem advance_closed (h : s.advance interval = some s') :
    s'.closed = s.closed ∧ s.stage.isOver = false := by
  have hafter : ∀ stage p, (s.after stage p).closed = s.closed := by
    intro stage p
    unfold System.after
    split <;> rfl
  unfold System.advance at h
  split at h
  · rename_i hstage
    split at h
    · cases h
      exact ⟨rfl, by rw [hstage]; rfl⟩
    · split at h <;> cases h
      exact ⟨rfl, by rw [hstage]; rfl⟩
  · rename_i hstage
    split at h
    · split at h <;> cases h <;> exact ⟨rfl, by rw [hstage]; rfl⟩
    · cases h
      exact ⟨rfl, by rw [hstage]; rfl⟩
  · rename_i hstage
    cases h
    exact ⟨hafter _ _, by rw [hstage]; rfl⟩
  · rename_i hstage
    cases h
    exact ⟨hafter _ _, by rw [hstage]; rfl⟩
  · cases h
  · cases h
  · cases h

/-- Only `shutdown` closes the log, and only the thread moves on itself, unless the process
stops. -/
theorem perform_closed {action : Action} {mark : Option (Mark Ask Outcome)}
    (ran : s.perform interval action = some (s', mark)) :
    s.stage.isCrashed = false ∧ (s.closed = true → s'.closed = true) ∧
      (s'.stage = s.stage ∨ s'.stage = .crashed ∨ s.stage.isOver = false) := by
  unfold System.perform at ran
  split at ran
  · cases ran
  rename_i hcrashed
  refine ⟨Bool.eq_false_iff.mpr hcrashed, ?_⟩
  cases action with
  | call id ask =>
    dsimp only at ran
    split at ran <;> cases ran
    exact ⟨fun h => h, .inl rfl⟩
  | send id =>
    dsimp only at ran
    split at ran
    · split at ran
      · cases ran
        exact ⟨fun h => h, .inl rfl⟩
      · split at ran <;> cases ran
        exact ⟨fun h => h, .inl rfl⟩
    · cases ran
  | read id calls =>
    dsimp only at ran
    split at ran <;> cases ran
    unfold System.read
    split
    · exact ⟨fun h => h, .inr (.inl rfl)⟩
    · exact ⟨fun h => h, .inl rfl⟩
  | ret id =>
    dsimp only at ran
    split at ran
    · cases ran
      exact ⟨fun h => h, .inl rfl⟩
    · split at ran
      · cases ran
        exact ⟨fun h => h, .inl rfl⟩
      · split at ran <;> cases ran
        exact ⟨fun h => h, .inl rfl⟩
    · cases ran
  | drop id =>
    dsimp only at ran
    split at ran <;> cases ran <;> exact ⟨fun h => h, .inl rfl⟩
  | shutdown =>
    dsimp only at ran
    split at ran <;> cases ran
    exact ⟨fun _ => rfl, .inl rfl⟩
  | join =>
    dsimp only at ran
    split at ran
    · split at ran <;> cases ran
      exact ⟨fun h => h, .inl rfl⟩
    · cases ran
  | advance =>
    obtain ⟨s₁, hadvance, heq⟩ := Option.map_eq_some_iff.mp ran
    cases heq
    obtain ⟨hclosed, hover⟩ := advance_closed hadvance
    exact ⟨fun h => hclosed.trans h, .inr (.inr hover)⟩

/-- While the log is open and the thread lives, so was and did it all along. -/
theorem open_before {action : Action} {mark : Option (Mark Ask Outcome)}
    (ran : s.perform interval action = some (s', mark)) :
    (s'.closed = false → s.closed = false) ∧ s.stage.isCrashed = false ∧
      (s'.stage.isCrashed = false → s'.stage.isOver = false → s.stage.isOver = false) := by
  obtain ⟨hcrashed, hclosed, hstage⟩ := perform_closed ran
  refine ⟨fun hopen => Bool.eq_false_iff.mpr fun h => ?_, hcrashed, fun hlive halive => ?_⟩
  · rw [hclosed h] at hopen
    cases hopen
  · rcases hstage with hsame | hstop | hover
    · rwa [← hsame]
    · rw [hstop] at hlive
      cases hlive
    · exact hover

/-- Nobody is forgotten, and nobody is told so who is not. While the log was not shut down and its
thread lives, no caller was told that the log is shut down, and each caller that awaits an answer
has it or will be answered: its message is in the queue or with the thread.
SOURCE: crates/wal/src/writer.rs:81-226 -/
theorem answered_while_open {options : Options} {w : Writer} {settled : ℕ} {replies : List Reply}
    {calls : List Storage.Reply} {spawned : Bool} (hlife : Life options (.up w) log settled)
    (h : Interleaving interval (System.opened w replies calls spawned) history s)
    (hclosed : s.closed = false) (hcrashed : s.stage.isCrashed = false)
    (hover : s.stage.isOver = false) :
    (∀ id outcome, .returned id outcome ∈ history → outcome.isShutdown = false) ∧
      ∀ id message, s.places id = some (.awaiting message) →
        s.held id = true ∨ (message.answer s.thread.deeds).isSome = true := by
  have hattended : ∀ {history : List (Mark Ask Outcome)} {s : System},
      Interleaving interval (System.opened w replies calls spawned) history s →
      s.closed = false → s.stage.isCrashed = false → s.stage.isOver = false →
      Attended s history := by
    intro history s h
    induction h with
    | start =>
      intro _ _ _
      exact ⟨nofun, nofun, nofun, nofun, fun _ _ hmem => absurd hmem List.not_mem_nil⟩
    | performed action before ran ih =>
      intro hclosed hcrashed hover
      obtain ⟨hopen, hlive, halive⟩ := open_before ran
      obtain ⟨order, phase, log', hconsistent⟩ :=
        before.consistent (hlife.consistent replies calls spawned)
      exact (ih (hopen hclosed) hlive (halive hcrashed hover)).perform hconsistent ran hclosed
        hcrashed hover (hopen hclosed) (halive hcrashed hover)
  obtain ⟨order, phase, log', hconsistent⟩ := h.consistent (hlife.consistent replies calls spawned)
  have hend := hattended h hclosed hcrashed hover
  refine ⟨hend.returned, fun id message hplace => (hend.attended id message hplace).imp_left ?_⟩
  intro hcomes
  obtain ⟨m, hm, hrespond⟩ := mem_of_comes hcomes
  have hown := hconsistent.progress id
  rw [hplace] at hown
  exact System.held_iff.mpr ⟨m, hm, hrespond.trans hown.1⟩

end Runs

/-! ## A checkpoint that another one takes the place of -/

/-- A checkpoint is asked for and given up, and another one asked for; the thread has taken in
both. -/
def replacedCheckpoint : List Action :=
  [.call 0 .checkpoint, .send 0, .drop 0, .call 1 .checkpoint, .send 1, .advance, .advance]

theorem answered_while_open_replaced : ∃ history s, @Interleaving crc32fast 1
      (System.opened freshWriter [] [] true) history s ∧ (s.places 1).isSome = true ∧
    (∀ id outcome, .returned id outcome ∈ history → outcome.isShutdown = false) ∧
      ∀ id message, s.places id = some (.awaiting message) →
        s.held id = true ∨ (message.answer s.thread.deeds).isSome = true := by
  have hruns : ((@System.performs crc32fast 1 (System.opened freshWriter [] [] true)
      replacedCheckpoint).map fun r => ((r.1.places 1).isSome, r.1.closed, r.1.stage.isCrashed,
        r.1.stage.isOver)) = some (true, false, false, false) := by decide +kernel
  obtain ⟨⟨s, history⟩, hperforms, hend⟩ := Option.map_eq_some_iff.mp hruns
  simp only [Prod.mk.injEq] at hend
  obtain ⟨hplace, hclosed, hcrashed, hover⟩ := hend
  have hran := @Interleaving.performs crc32fast _ _ _ [] _ (@Interleaving.start crc32fast 1 _) _ _
    hperforms
  exact ⟨history, s, hran, hplace, @answered_while_open _ _ _ _ crc32fast _ _ _ _ _ _
    life_freshWriter hran hclosed hcrashed hover⟩

end Hadar.Wal
