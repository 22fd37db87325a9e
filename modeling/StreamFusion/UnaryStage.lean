import StreamFusion.State.Backend

/-!
# Persistent unary stages

A stage owns a processor and runs one invocation at a time: `execute` claims the processor and opens
the child, the stream is polled, and dropping it ends the invocation.  The child and the processor
answer as they like; what they answer in one poll is an argument, and the calls are logged, the last
one first.  Panics, which may poison the processor's lock, are not modelled.
-/

namespace StreamFusion.UnaryStage

open State

/-- The stage's results: errors are those of the state backend. -/
abbrev Result := Except StateError

/-- Whether the processor is claimed by an invocation, or lost to one that failed. -/
inductive InvocationState where
  | idle
  | active
  | failed
  deriving DecidableEq

/-- Only an idle processor may be claimed. -/
def InvocationState.requireIdle (name : String) : InvocationState → Result Unit
  | .idle => .ok ()
  | _ => .error (.execution
      (name ++ " native invocation is active or failed; a failed invocation requires recovery"))

/-- The outcome of polling a stream; `ready none` is its end. -/
inductive Poll (α : Type) where
  | pending
  | ready (item : Option (Result α))

/-- What the child and the processor answer, should a poll call them.  With an output comes what
`has_pending_output` then says; after a control output nobody asks. -/
structure Answers (β : Type) where
  pendingOutput : Result (Option β × Bool)
  child : Poll β
  processBatch : Result (β × Bool)
  control : Result (Option β × Bool)

/-- What the memory pool, the context's control events and the child answer when a partition is
opened. -/
structure Opening (κ : Type) where
  partition : Nat := 0
  memory : Result Unit := .ok ()
  control : Result (Option κ) := .ok none
  child : Result Unit := .ok ()

/-- A call of the child or of the processor, with its answer. -/
inductive Call (β κ : Type) where
  | pendingOutput (answer : Result (Option β × Bool))
  | child (answer : Poll β)
  | processBatch (batch : β) (answer : Result (β × Bool))
  | control (event : κ) (answer : Result (Option β × Bool))

/-- The processor's invocation and its last stream.  A terminal stream does nothing any more, so
that the next one may take its place. -/
structure Stage (β κ : Type) where
  invocation : InvocationState := .idle
  control : Option κ := none
  terminal : Bool := true
  childEnded : Bool := false
  pendingOutput : Bool := false
  calls : List (Call β κ) := []

/-- What the caller of the stage does. -/
inductive Action (β κ : Type) where
  | execute (opening : Opening κ)
  | poll (answers : Answers β)
  | drop

variable {β κ : Type}

namespace Stage

/-- Ends the invocation. -/
def finish (successful : Bool) (stage : Stage β κ) : Stage β κ :=
  { stage with invocation := if successful then .idle else .failed, terminal := true }

/-- Ends the invocation with an error. -/
def fail (error : StateError) (stage : Stage β κ) : Poll β × Stage β κ :=
  (.ready (some (.error error)), stage.finish false)

/-- Notes a call. -/
def log (call : Call β κ) (stage : Stage β κ) : Stage β κ :=
  { stage with calls := call :: stage.calls }

section

variable (name : String) (fits : β → Bool) (answers : Answers β) (stage : Stage β κ)

/-- Polls the control event, once the child has ended. -/
def pollControl : Poll β × Stage β κ :=
  match stage.control with
  | none => (.ready none, stage.finish true)
  | some event =>
    let stage := stage.log (.control event answers.control)
    match answers.control with
    | .ok (some batch, _) =>
      if fits batch then (.ready (some (.ok batch)), stage)
      else stage.fail (.execution (name ++ " control output differs from its native schema"))
    | .ok (none, _) => (.ready none, stage.finish true)
    | .error error => stage.fail error

/-- `poll_next` from the child on. -/
def pollChild : Poll β × Stage β κ :=
  if stage.childEnded then
    stage.pollControl name fits answers
  else
    let stage := stage.log (.child answers.child)
    match answers.child with
    | .pending => (.pending, stage)
    | .ready none => { stage with childEnded := true }.pollControl name fits answers
    | .ready (some (.error error)) => stage.fail error
    | .ready (some (.ok batch)) =>
      let stage := stage.log (.processBatch batch answers.processBatch)
      match answers.processBatch with
      | .ok (output, pending) =>
        (.ready (some (.ok output)), { stage with pendingOutput := pending })
      | .error error => stage.fail error

/-- One poll of the stream: pending output first, then the child. -/
def pollNext : Poll β × Stage β κ :=
  if stage.terminal then
    (.ready none, stage)
  else if stage.pendingOutput then
    let stage := stage.log (.pendingOutput answers.pendingOutput)
    match answers.pendingOutput with
    | .ok (none, true) => stage.fail (.execution (name ++ " pending cursor made no progress"))
    | .ok (some batch, pending) =>
      if fits batch then (.ready (some (.ok batch)), { stage with pendingOutput := pending })
      else stage.fail (.execution (name ++ " pending output differs from its native schema"))
    | .ok (none, false) => { stage with pendingOutput := false }.pollChild name fits answers
    | .error error => stage.fail error
  else
    stage.pollChild name fits answers

/-- A stream that is dropped early fails its invocation. -/
def drop : Stage β κ := if stage.terminal then stage else stage.finish false

/-- The control event of a stage that may be claimed. -/
def grant (opening : Opening κ) : Result (Option κ) :=
  if opening.partition ≠ 0 then
    .error (.execution (name ++ " has one task-local native partition"))
  else do
    opening.memory
    let control ← opening.control
    stage.invocation.requireIdle name
    return control

/-- Starts an invocation. -/
def execute (opening : Opening κ) : Result Unit × Stage β κ :=
  match stage.grant name opening with
  | .error error => (.error error, stage)
  | .ok control =>
    let stage : Stage β κ := { invocation := .active, control, terminal := false }
    match opening.child with
    | .ok () => (.ok (), stage)
    -- the processor has consumed no input
    | .error error => (.error error, stage.finish true)

/-- The stage after an action. -/
def apply : Action β κ → Stage β κ
  | .execute opening => (stage.execute name opening).2
  | .poll answers => (stage.pollNext name fits answers).2
  | .drop => stage.drop

end

end Stage

/-! ## The order of the calls -/

/-- Whether the processor has reported output that is not drained.  What it says after a control
output is not asked for. -/
def owing : List (Call β κ) → Bool
  | .pendingOutput (.ok (_, pending)) :: _ => pending
  | .processBatch _ (.ok (_, pending)) :: _ => pending
  | _ :: earlier => owing earlier
  | [] => false

/-- When a call may be made: at any time there is exactly one kind of call that is allowed. -/
def Call.Allowed (earlier : List (Call β κ)) : Call β κ → Prop
  | .pendingOutput _ => owing earlier = true ∧ .child (.ready none) ∉ earlier
  | .child _ => owing earlier = false ∧ .child (.ready none) ∉ earlier
  | .processBatch batch _ => earlier.head? = some (.child (.ready (some (.ok batch))))
  | .control _ _ => owing earlier = false ∧ .child (.ready none) ∈ earlier

/-- Every call was allowed when it was made. -/
def Ordered : List (Call β κ) → Prop
  | [] => True
  | call :: earlier => call.Allowed earlier ∧ Ordered earlier

/-- The batch that a call of the child delivers. -/
def Call.delivered : Call β κ → Option β
  | .child (.ready (some (.ok batch))) => some batch
  | _ => none

/-- The batch that a call gives to the processor. -/
def Call.processed : Call β κ → Option β
  | .processBatch batch _ => some batch
  | _ => none

/-! ## What a poll comes to -/

/-- The call was answered in this poll, and a control call delivers the stage's event. -/
def Call.AnsweredBy (control : Option κ) (answers : Answers β) : Call β κ → Prop
  | .pendingOutput answer => answer = answers.pendingOutput
  | .child answer => answer = answers.child
  | .processBatch _ answer => answer = answers.processBatch
  | .control event answer => control = some event ∧ answer = answers.control

/-- An output that is drained or comes from a control event must have the stage's schema. -/
def checked (fits : β → Bool) (differs : String) (batch : β) : Poll β :=
  .ready (some (if fits batch then .ok batch else .error (.execution differs)))

/-- What the poll returns if the call is its last one; `none` if another call must follow. -/
def Call.reply (name : String) (fits : β → Bool) (control : Option κ) : Call β κ → Option (Poll β)
  | .pendingOutput (.ok (some batch, _)) =>
    some (checked fits (name ++ " pending output differs from its native schema") batch)
  | .pendingOutput (.ok (none, true)) =>
    some (.ready (some (.error (.execution (name ++ " pending cursor made no progress")))))
  | .pendingOutput (.ok (none, false)) => none
  | .child .pending => some .pending
  | .child (.ready (some (.ok _))) => none
  | .child (.ready none) => if control.isSome then none else some (.ready none)
  | .processBatch _ (.ok (batch, _)) => some (.ready (some (.ok batch)))
  | .control _ (.ok (some batch, _)) =>
    some (checked fits (name ++ " control output differs from its native schema") batch)
  | .control _ (.ok (none, _)) => some (.ready none)
  | .pendingOutput (.error error) | .child (.ready (some (.error error)))
  | .processBatch _ (.error error) | .control _ (.error error) =>
    some (.ready (some (.error error)))

/-- A poll makes at least one call, goes on after all but the last, and returns the reply of the
last. -/
def Replies (name : String) (fits : β → Bool) (control : Option κ) (answers : Answers β)
    (calls : List (Call β κ)) (result : Poll β × Stage β κ) : Prop :=
  ∃ last earlier, result.2.calls = last :: (earlier ++ calls) ∧
    (∀ call ∈ last :: earlier, call.AnsweredBy control answers) ∧
    (∀ call ∈ earlier, call.reply name fits control = none) ∧
    last.reply name fits control = some result.1

namespace Replies

variable {name : String} {fits : β → Bool} {control : Option κ} {answers : Answers β}
  {calls : List (Call β κ)} {result : Poll β × Stage β κ} (call : Call β κ)

theorem last (hcalls : result.2.calls = call :: calls) (hanswered : call.AnsweredBy control answers)
    (hreply : call.reply name fits control = some result.1) :
    Replies name fits control answers calls result :=
  ⟨call, [], hcalls, by simpa using hanswered, by simp, hreply⟩

theorem after (h : Replies name fits control answers (call :: calls) result)
    (hanswered : call.AnsweredBy control answers) (hreply : call.reply name fits control = none) :
    Replies name fits control answers calls result := by
  obtain ⟨last, earlier, hcalls, hall, hgoOn, hlast⟩ := h
  refine ⟨last, earlier ++ [call], by simp [hcalls], ?_, ?_, hlast⟩
  · simpa [or_imp, forall_and, hanswered] using hall
  · simpa [or_imp, forall_and, hreply] using hgoOn

end Replies

namespace Stage

/-- The child has ended, no output is pending, and the control event, if any, has nothing more to
emit. -/
def Drained (stage : Stage β κ) : Prop :=
  .child (.ready none) ∈ stage.calls ∧ owing stage.calls = false ∧
    (stage.control = none ∨
      ∃ event pending, stage.calls.head? = some (.control event (.ok (none, pending))))

/-- What holds of the log at any time. -/
structure Logged (stage : Stage β κ) : Prop where
  ordered : Ordered stage.calls
  processed : stage.calls.filterMap Call.processed = stage.calls.filterMap Call.delivered

/-- A stream that can be polled. -/
structure Live (stage : Stage β κ) : Prop extends stage.Logged where
  invocation : stage.invocation = .active
  terminal : stage.terminal = false
  pending : owing stage.calls = stage.pendingOutput
  ended : .child (.ready none) ∈ stage.calls ↔ stage.childEnded = true
  last : stage.childEnded = true → stage.pendingOutput = false
  awaits : stage.childEnded = true → stage.control ≠ none

/-- No invocation is running. -/
structure Settled (stage : Stage β κ) : Prop extends stage.Logged where
  invocation : stage.invocation ≠ .active
  terminal : stage.terminal = true

/-- What a poll of a live stream comes to. -/
structure Polled (result : Poll β × Stage β κ) : Prop where
  sound : result.2.Live ∨ result.2.Settled
  idle : result.2.invocation = .idle ↔ result.2.Drained
  failed : result.2.invocation = .failed ↔ ∃ error, result.1 = .ready (some (.error error))

variable {name : String} {fits : β → Bool} {stage : Stage β κ}

theorem Logged.log (h : stage.Logged) (call : Call β κ) (hallowed : call.Allowed stage.calls)
    (hprocessed : call.processed = none) (hdelivered : call.delivered = none) :
    (stage.log call).Logged :=
  ⟨⟨hallowed, h.ordered⟩, by simpa [Stage.log, hprocessed, hdelivered] using h.processed⟩

theorem Logged.finish (h : stage.Logged) (successful : Bool) : (stage.finish successful).Settled :=
  ⟨⟨h.ordered, h.processed⟩, by cases successful <;> simp [Stage.finish], rfl⟩

theorem Polled.goesOn {poll : Poll β} (h : stage.Live) (hopen : ¬ stage.Drained)
    (hpoll : ∀ error, poll ≠ .ready (some (.error error))) : Polled (poll, stage) :=
  ⟨.inl h, by simp [h.invocation, hopen], by simp [h.invocation, hpoll]⟩

theorem Polled.ends (h : stage.Logged) (hdrained : stage.Drained) :
    Polled (.ready none, stage.finish true) :=
  ⟨.inr (h.finish true), iff_of_true rfl hdrained, by simp [Stage.finish]⟩

theorem Polled.fails (error : StateError) (h : stage.Logged) (hopen : ¬ stage.Drained) :
    Polled (stage.fail error) :=
  ⟨.inr (h.finish false), iff_of_false nofun hopen, iff_of_true rfl ⟨error, rfl⟩⟩

/-- Polling the control goes on, ends or fails. -/
theorem polled_pollControl (h : stage.Live) (hended : stage.childEnded = true)
    (answers : Answers β) : Polled (stage.pollControl name fits answers) := by
  have howing : owing stage.calls = false := h.pending.trans (h.last hended)
  have hchild := h.ended.mpr hended
  obtain ⟨-, -, -, answer⟩ := answers
  unfold pollControl
  split
  · next hcontrol => exact absurd hcontrol (h.awaits hended)
  · next event hcontrol =>
    have hlogged := h.toLogged.log (.control event answer) ⟨howing, hchild⟩ rfl rfl
    rcases answer with error | ⟨_ | batch, pending⟩ <;> dsimp only
    · exact .fails error hlogged (by simp [Drained, log, hcontrol])
    · exact .ends hlogged ⟨.tail _ hchild, howing, .inr ⟨event, pending, rfl⟩⟩
    · have hopen : ¬ (stage.log (.control event (.ok (some batch, pending)))).Drained := by
        simp [Drained, log, hcontrol]
      split
      · exact .goesOn ⟨hlogged, h.invocation, h.terminal, h.pending, by simpa [log] using h.ended,
          h.last, h.awaits⟩ hopen (by simp)
      · exact .fails _ hlogged hopen

/-- Polling the child goes on, ends or fails. -/
theorem polled_pollChild (h : stage.Live) (hpending : stage.pendingOutput = false)
    (answers : Answers β) : Polled (stage.pollChild name fits answers) := by
  unfold pollChild
  split
  · next hended => exact polled_pollControl h hended answers
  · next hended =>
    have hchild : .child (.ready none) ∉ stage.calls := mt h.ended.mp hended
    have hallowed (answer : Poll β) : (Call.child answer).Allowed stage.calls :=
      ⟨h.pending.trans hpending, hchild⟩
    rcases answers.child with _ | _ | error | batch <;> dsimp only
    · exact .goesOn ⟨h.toLogged.log _ (hallowed _) rfl rfl, h.invocation, h.terminal, h.pending,
        by simpa [log] using h.ended, h.last, h.awaits⟩ (by simp [Drained, log, hchild]) nofun
    · have hlogged := h.toLogged.log (.child (.ready none)) (hallowed _) rfl rfl
      rcases hcontrol : stage.control with _ | event
      · have hends : Polled (.ready none,
            { stage.log (.child (.ready none)) with childEnded := true }.finish true) :=
          .ends ⟨hlogged.ordered, hlogged.processed⟩
            ⟨List.mem_cons_self, h.pending.trans hpending, .inl hcontrol⟩
        simpa [pollControl, log, hcontrol] using hends
      · have hlive : { stage.log (.child (.ready none)) with childEnded := true }.Live :=
          ⟨⟨hlogged.ordered, hlogged.processed⟩, h.invocation, h.terminal, h.pending, by simp [log],
            fun _ => hpending, fun _ => by simp [log, hcontrol]⟩
        exact polled_pollControl hlive rfl answers
    · exact .fails error (h.toLogged.log _ (hallowed _) rfl rfl) (by simp [Drained, log, hchild])
    · have hlogged (answer : Result (β × Bool)) :
          ((stage.log (.child (.ready (some (.ok batch))))).log
            (.processBatch batch answer)).Logged :=
        ⟨⟨rfl, hallowed _, h.ordered⟩, congrArg (batch :: ·) h.processed⟩
      rcases answers.processBatch with error | ⟨output, pending⟩ <;> dsimp only
      · exact .fails error (hlogged _) (by simp [Drained, log, hchild])
      · exact .goesOn ⟨⟨(hlogged _).ordered, (hlogged _).processed⟩, h.invocation, h.terminal, rfl,
          by simpa [log] using h.ended, fun hend => absurd hend hended,
          fun hend => absurd hend hended⟩ (by simp [Drained, log, hchild]) (by simp)

/-- Polling the stage goes on, ends or fails. -/
theorem polled_pollNext (h : stage.Live) (answers : Answers β) :
    Polled (stage.pollNext name fits answers) := by
  rw [pollNext, h.terminal, if_neg (by simp)]
  split
  · next hpending =>
    have hended : ¬ stage.childEnded = true := fun hend => by simp [h.last hend] at hpending
    have hchild : .child (.ready none) ∉ stage.calls := mt h.ended.mp hended
    have hlogged (answer : Result (Option β × Bool)) :=
      h.toLogged.log (.pendingOutput answer) ⟨h.pending.trans hpending, hchild⟩ rfl rfl
    have hopen (answer : Result (Option β × Bool)) :
        ¬ (stage.log (.pendingOutput answer)).Drained := by
      simp [Drained, log, hchild]
    have hlive (output : Option β) (pending : Bool) :
        { stage.log (.pendingOutput (.ok (output, pending))) with pendingOutput := pending }.Live :=
      ⟨⟨(hlogged _).ordered, (hlogged _).processed⟩, h.invocation, h.terminal, rfl,
        by simpa [log] using h.ended, fun hend => absurd hend hended,
        fun hend => absurd hend hended⟩
    rcases answers.pendingOutput with error | ⟨_ | batch, _ | _⟩ <;> dsimp only
    · exact .fails error (hlogged _) (hopen _)
    · exact polled_pollChild (hlive none false) rfl answers
    · exact .fails _ (hlogged _) (hopen _)
    all_goals
      split
      · exact .goesOn (hlive _ _) (hopen _) (by simp)
      · exact .fails _ (hlogged _) (hopen _)
  · next hpending => exact polled_pollChild h (by simpa using hpending) answers

/-! ## Every poll makes progress -/

variable (name fits stage) in
theorem replies_pollControl {event : κ} (hcontrol : stage.control = some event)
    (answers : Answers β) :
    Replies name fits stage.control answers stage.calls (stage.pollControl name fits answers) := by
  refine .last (.control event answers.control) ?_ ⟨hcontrol, rfl⟩ ?_ <;>
    rcases hanswer : answers.control with error | ⟨_ | batch, pending⟩ <;>
    simp only [pollControl, hcontrol, hanswer, Call.reply, checked] <;> try rfl
  all_goals split <;> rfl

variable (name fits stage) in
theorem replies_pollChild (hawaits : stage.childEnded = true → stage.control ≠ none)
    (answers : Answers β) :
    Replies name fits stage.control answers stage.calls (stage.pollChild name fits answers) := by
  unfold pollChild
  split
  · next hended =>
    obtain ⟨event, hcontrol⟩ := Option.ne_none_iff_exists'.mp (hawaits hended)
    exact replies_pollControl name fits stage hcontrol answers
  · rcases hanswer : answers.child with _ | _ | error | batch <;> dsimp only
    · exact .last _ rfl hanswer.symm rfl
    · rcases hcontrol : stage.control with _ | event
      · exact .last (.child (.ready none)) (by simp [pollControl, log, hcontrol, finish])
          hanswer.symm (by simp [Call.reply, pollControl, log, hcontrol])
      · have hends := replies_pollControl name fits
          { stage.log (.child (.ready none)) with childEnded := true } hcontrol answers
        rw [show (Stage.log _ stage).control = some event from hcontrol] at hends
        exact hends.after _ hanswer.symm rfl
    · exact .last _ rfl hanswer.symm rfl
    · refine .after (.child (.ready (some (.ok batch)))) ?_ hanswer.symm rfl
      rcases hprocessed : answers.processBatch with error | ⟨output, pending⟩ <;>
        exact .last _ rfl hprocessed.symm rfl

/-- A poll returns the reply of its last call. -/
theorem replies_pollNext (h : stage.Live) (answers : Answers β) :
    Replies name fits stage.control answers stage.calls (stage.pollNext name fits answers) := by
  rw [pollNext, h.terminal, if_neg (by simp)]
  split
  · rcases hanswer : answers.pendingOutput with error | ⟨_ | batch, _ | _⟩ <;> dsimp only
    · exact .last _ rfl hanswer.symm rfl
    · refine .after (.pendingOutput (.ok (none, false))) ?_ hanswer.symm rfl
      exact replies_pollChild name fits
        { stage.log (.pendingOutput (.ok (none, false))) with pendingOutput := false }
        h.awaits answers
    · exact .last _ rfl hanswer.symm rfl
    all_goals
      split
      · next hfits => exact .last _ rfl hanswer.symm (by simp [Call.reply, checked, hfits])
      · next hfits =>
        exact .last _ rfl hanswer.symm (by simp [Call.reply, checked, hfits, fail])
  · exact replies_pollChild name fits stage h.awaits answers

/-! ## The protocol -/

theorem exists_grant (name : String) {opening : Opening κ} :
    (∃ control, stage.grant name opening = .ok control) ↔
      stage.invocation = .idle ∧ opening.partition = 0 ∧ opening.memory = .ok () ∧
        ∃ control, opening.control = .ok control := by
  obtain ⟨_ | _, _ | _, _ | _, -⟩ := opening <;> rcases hinvocation : stage.invocation <;>
    simp [grant, InvocationState.requireIdle, hinvocation, bind, Except.bind, pure, Except.pure]

/-- An action keeps the stage sound. -/
theorem sound_apply (h : stage.Live ∨ stage.Settled) (action : Action β κ) :
    (stage.apply name fits action).Live ∨ (stage.apply name fits action).Settled := by
  cases action with
  | execute opening =>
    have hnew (control : Option κ) :
        ({ invocation := .active, control, terminal := false } : Stage β κ).Live :=
      ⟨⟨trivial, rfl⟩, rfl, rfl, rfl, by simp, by simp, by simp⟩
    simp only [apply, execute]
    rcases stage.grant name opening with _ | control
    · exact h
    · rcases opening.child with _ | _
      · exact .inr ((hnew control).toLogged.finish true)
      · exact .inl (hnew control)
  | poll answers =>
    rcases h with h | h
    · exact (polled_pollNext h answers).sound
    · exact .inr (by simpa [apply, pollNext, h.terminal] using h)
  | drop =>
    rcases h with h | h
    · exact .inr (by simpa [apply, drop, h.terminal] using h.toLogged.finish false)
    · exact .inr (by simpa [apply, drop, h.terminal] using h)

/-- **The protocol of a stage.**  Whatever the child, the processor and the caller do: within an
invocation every batch of the child is processed once and in order, pending output of a batch is
drained before the next batch is taken or the control event is delivered, and the control event
comes after the end of the child only.  Every poll of a running invocation makes the call that is
due, goes on as far as the answers let it and returns what the last one came to.  It returns the
invocation to idle exactly if everything was drained, and fails it exactly if it returns an error;
an early drop fails it.  Without a running invocation a poll does nothing, and a failed stage stays
failed.  `execute` starts an invocation exactly if the stage is idle and everything is granted, and
otherwise leaves the stage as idle, active or failed as it was. -/
theorem unary_stage_protocol (name : String) (fits : β → Bool) (actions : List (Action β κ)) :
    let stage : Stage β κ := actions.foldl (apply name fits) {}
    Ordered stage.calls ∧
    stage.calls.filterMap Call.processed = stage.calls.filterMap Call.delivered ∧
    (stage.invocation = .active → stage.drop.invocation = .failed ∧ ∀ answers,
      let (poll, after) := stage.pollNext name fits answers
      Replies name fits stage.control answers stage.calls (poll, after) ∧
      (after.invocation = .idle ↔ after.Drained) ∧
      (after.invocation = .failed ↔ ∃ error, poll = .ready (some (.error error)))) ∧
    (stage.invocation ≠ .active →
      ∀ answers, stage.pollNext name fits answers = (.ready none, stage)) ∧
    (stage.invocation = .failed → ∀ action, (stage.apply name fits action).invocation = .failed) ∧
    ∀ opening, let (opened, after) := stage.execute name opening
      (opened = .ok () ↔ opening.child = .ok () ∧ stage.invocation = .idle ∧ opening.partition = 0 ∧
        opening.memory = .ok () ∧ ∃ control, opening.control = .ok control) ∧
      (opened ≠ .ok () → after.invocation = stage.invocation) := by
  intro stage
  have hsound : stage.Live ∨ stage.Settled :=
    List.foldlRecOn (motive := fun stage : Stage β κ => stage.Live ∨ stage.Settled) actions _
      (.inr ⟨⟨trivial, rfl⟩, nofun, rfl⟩) fun _ h action _ => sound_apply h action
  have hlogged : stage.Logged := hsound.elim (·.toLogged) (·.toLogged)
  refine ⟨hlogged.ordered, hlogged.processed, fun hactive => ?_, fun hinactive answers => ?_,
    fun hfailed action => ?_, fun opening => ?_⟩
  · have hlive : stage.Live := hsound.resolve_right fun h => h.invocation hactive
    refine ⟨by simp [drop, hlive.terminal, finish], fun answers => ?_⟩
    have hpolled : Polled (stage.pollNext name fits answers) := polled_pollNext hlive answers
    exact ⟨replies_pollNext hlive answers, hpolled.idle, hpolled.failed⟩
  · have hsettled : stage.Settled := hsound.resolve_left fun h => hinactive h.invocation
    simp [pollNext, hsettled.terminal]
  · have hsettled : stage.Settled := hsound.resolve_left fun h => by simp [h.invocation] at hfailed
    rcases action with opening | answers | _
    · rcases hgrant : stage.grant name opening with _ | control
      · simpa [apply, execute, hgrant] using hfailed
      · exact nomatch hfailed.symm.trans ((exists_grant name).mp ⟨control, hgrant⟩).1
    · simpa [apply, pollNext, hsettled.terminal] using hfailed
    · simpa [apply, drop, hsettled.terminal] using hfailed
  · rw [← exists_grant name]
    rcases hgrant : stage.grant name opening with _ | control <;>
      rcases hchild : opening.child with _ | _ <;> simp [execute, hgrant, hchild, finish]
    exact ((exists_grant name).mp ⟨control, hgrant⟩).1.symm

/-- A run: a batch with pending output, the pending output, the end of the child with an output of
the control event, and the end of the control event. -/
def fourPolls : List (Action Nat Unit) :=
  [.execute { control := .ok (some ()) },
    .poll ⟨.error .denied, .ready (some (.ok 1)), .ok (10, true), .error .denied⟩,
    .poll ⟨.ok (some 11, true), .pending, .error .denied, .error .denied⟩,
    .poll ⟨.ok (none, false), .ready none, .error .denied, .ok (some 12, true)⟩,
    .poll ⟨.error .denied, .pending, .error .denied, .ok (none, true)⟩]

/-- What each poll of a run returns. -/
def polls (name : String) (fits : β → Bool) : Stage β κ → List (Action β κ) → List (Poll β)
  | _, [] => []
  | stage, .poll answers :: rest =>
    let (poll, after) := stage.pollNext name fits answers
    poll :: polls name fits after rest
  | stage, action :: rest => polls name fits (stage.apply name fits action) rest

/-- The four polls emit the three outputs and end the invocation, though the processor says after
the control output that it has more. -/
theorem unary_stage_protocol_four_polls :
    polls "stage" (fun _ => true) {} fourPolls =
      [.ready (some (.ok 10)), .ready (some (.ok 11)), .ready (some (.ok 12)), .ready none] ∧
    (fourPolls.foldl (apply "stage" fun _ => true) {}).invocation = .idle ∧
    Ordered (fourPolls.foldl (apply "stage" fun _ => true) {}).calls :=
  ⟨rfl, rfl, (unary_stage_protocol "stage" (fun _ => true) fourPolls).1⟩

/-- A stage whose child cannot be opened reports an error and is idle again; nothing is drained. -/
theorem unopened_child_idle :
    (({} : Stage Unit Unit).execute "stage" { child := .error .denied }).1 = .error .denied ∧
    (({} : Stage Unit Unit).execute "stage" { child := .error .denied }).2.invocation = .idle ∧
    ¬ (({} : Stage Unit Unit).execute "stage" { child := .error .denied }).2.Drained :=
  ⟨rfl, rfl, fun h => by cases h.1⟩

end Stage

end StreamFusion.UnaryStage
