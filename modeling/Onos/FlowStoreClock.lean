import Onos.FlowStoreBucket
import Onos.Lib.CausalHistory
import Onos.Lib.InFlight
import Onos.Lib.InputMachine

/-! The logical clocks of the flow store. A node takes timestamps for the updates of its buckets and
for the requests that it sends; a request moves the receiver's clock before its handler runs, and
the response is stamped after it. Messages are delayed, reordered or lost at will. -/
namespace FlowStoreClock

open CausalHistory FlowStoreBucket InFlight InputMachine

inductive Exchange where
  | request
  | response
  deriving DecidableEq, Repr

/-- A message in its wrapper, with the position of the event that it was stamped in. -/
structure Timestamped (N : Type*) where
  exchange : Exchange
  src : N
  dst : N
  timestamp : LogicalTimestamp
  event : ℕ
  deriving DecidableEq, Repr

/-- What happened at a node: what its clock reads since, the position of the event in which the
message received was stamped, and the timestamp that was taken. -/
structure Event (N : Type*) where
  node : N
  clock : LogicalClock
  received : Option ℕ
  timestamp : Option LogicalTimestamp
  deriving DecidableEq, Repr

def reading (N : Type*) : Reading (Event N) N :=
  ⟨Event.node, fun e => e.clock.timestamp, Event.received⟩

/-- The clocks, the messages on their way, the handlers that are running, each with its node and
the node that waits for the response, and what has happened. -/
structure Nodes (N : Type*) where
  clocks : N → LogicalClock
  network : List (Timestamped N)
  handlers : List (N × N)
  history : List (Event N)

inductive ClockInput (N : Type*) where
  | update (n : N)
  | sendWithTimestamp (n toNodeId : N)
  | receive (k : ℕ)
  | respond (k : ℕ)
  | fail (k : ℕ)
  | lose (k : ℕ)
  deriving DecidableEq, Repr

variable {N : Type*} [DecidableEq N]

namespace Nodes

def stamp (s : Nodes N) (n : N) : Nodes N × LogicalTimestamp :=
  let (timestamp, clock) := (s.clocks n).getTimestamp
  ({ s with
    clocks := Function.update s.clocks n clock
    history := s.history ++ [⟨n, clock, none, some timestamp⟩] }, timestamp)

/-- The message has its place in the history where its timestamp was taken. -/
def post (s : Nodes N) (exchange : Exchange) (src dst : N) : Nodes N :=
  let (stamped, timestamp) := s.stamp src
  { stamped with network := s.network ++ [⟨exchange, src, dst, timestamp, s.history.length⟩] }

def tick (s : Nodes N) (message : Timestamped N) : Nodes N :=
  let clock := (s.clocks message.dst).tick message.timestamp
  { s with
    clocks := Function.update s.clocks message.dst clock
    history := s.history ++ [⟨message.dst, clock, some message.event, none⟩] }

/-- The subscriber ticks and calls its function; the sender of the request ticks and is done. -/
def receive (s : Nodes N) (message : Timestamped N) : Nodes N :=
  match message.exchange with
  | .request =>
    { s.tick message with handlers := s.handlers ++ [(message.dst, message.src)] }
  | .response => s.tick message

def handle (s : Nodes N) : ClockInput N → Nodes N
  | .update n => (s.stamp n).1
  | .sendWithTimestamp n toNodeId => s.post .request n toNodeId
  | .receive k => match takeAt k s.network with
    | none => s
    | some (message, rest) => { s with network := rest }.receive message
  | .respond k => match takeAt k s.handlers with
    | none => s
    | some ((n, sender), rest) => { s with handlers := rest }.post .response n sender
  | .fail k => match takeAt k s.handlers with
    | none => s
    | some (_, rest) => { s with handlers := rest }
  | .lose k => match takeAt k s.network with
    | none => s
    | some (_, rest) => { s with network := rest }

end Nodes

def clockMachine (N : Type*) [DecidableEq N] : Machine (Nodes N) (ClockInput N) where
  initial := ⟨fun _ => ⟨0⟩, [], [], []⟩
  enabled _ _ := True
  next := Nodes.handle

structure Accounted (s : Nodes N) : Prop where
  clocked : IsClocked (reading N) s.history fun n => (s.clocks n).timestamp
  taken : ∀ e ∈ s.history, ∀ t, e.timestamp = some t → t.value = e.clock.timestamp
  sent : ∀ message ∈ s.network,
    ∃ e, s.history[message.event]? = some e ∧ e.clock.timestamp = message.timestamp.value

variable {s : Nodes N} {network : List (Timestamped N)}

theorem accounted_initial : Accounted (clockMachine N).initial where
  clocked := isClocked_nil _
  taken _ he := absurd he List.not_mem_nil
  sent _ hm := absurd hm List.not_mem_nil

omit [DecidableEq N] in
theorem Accounted.drop (h : Accounted s) (hsub : network ⊆ s.network) (handlers : List (N × N)) :
    Accounted { s with network := network, handlers := handlers } :=
  { h with sent := fun message hm => h.sent message (hsub hm) }

section

variable (h : Accounted s)

include h

theorem Accounted.event {e : Event N} (hclock : (s.clocks e.node).timestamp < e.clock.timestamp)
    (hreceived : ∀ i, e.received = some i →
      ∃ sent, s.history[i]? = some sent ∧ sent.clock.timestamp < e.clock.timestamp)
    (htaken : ∀ t, e.timestamp = some t → t.value = e.clock.timestamp) :
    Accounted { s with
      clocks := Function.update s.clocks e.node e.clock
      history := s.history ++ [e] } where
  clocked := by
    have hnext := h.clocked.concat (f := e) hclock hreceived
    have hclocks : (fun n => (Function.update s.clocks e.node e.clock n).timestamp) =
        Function.update (fun n => (s.clocks n).timestamp) e.node e.clock.timestamp := by
      funext n
      simp only [Function.update_apply]
      split_ifs <;> rfl
    rw [hclocks]
    exact hnext
  taken f hf t ht := by
    rcases List.mem_append.mp hf with hold | hnew
    · exact h.taken f hold t ht
    · obtain rfl := List.mem_singleton.mp hnew
      exact htaken t ht
  sent message hm := by
    obtain ⟨f, hf, hclock⟩ := h.sent message hm
    exact ⟨f, getElem?_concat_of_some hf e, hclock⟩

theorem Accounted.stamp (n : N) : Accounted (s.stamp n).1 :=
  h.event (e := ⟨n, _, none, some _⟩) (Nat.lt_succ_self _) (fun _ hi => by cases hi) fun t ht => by
    cases ht
    rfl

theorem Accounted.post (exchange : Exchange) (src dst : N) :
    Accounted (s.post exchange src dst) where
  clocked := (h.stamp src).clocked
  taken := (h.stamp src).taken
  sent message hm := by
    rcases List.mem_append.mp hm with hold | hnew
    · exact (h.stamp src).sent message hold
    · obtain rfl := List.mem_singleton.mp hnew
      exact ⟨_, List.getElem?_concat_length, rfl⟩

theorem Accounted.tick {message : Timestamped N} (hsent : ∃ e, s.history[message.event]? = some e ∧
      e.clock.timestamp = message.timestamp.value) : Accounted (s.tick message) := by
  refine h.event (e := ⟨message.dst, _, some message.event, none⟩) ?_ ?_ fun t ht => by cases ht
  · exact Nat.lt_succ_of_le (Nat.le_max_left _ _)
  · intro i hi
    cases hi
    obtain ⟨e, he, hclock⟩ := hsent
    refine ⟨e, he, ?_⟩
    rw [hclock]
    exact Nat.lt_succ_of_le (Nat.le_max_right _ _)

theorem Accounted.receive {message : Timestamped N}
    (hsent : ∃ e, s.history[message.event]? = some e ∧
      e.clock.timestamp = message.timestamp.value) : Accounted (s.receive message) := by
  unfold Nodes.receive
  cases message.exchange with
  | request => exact (h.tick hsent).drop (List.Subset.refl _) _
  | response => exact h.tick hsent

theorem Accounted.handle (x : ClockInput N) : Accounted (s.handle x) := by
  cases x with
  | update n => exact h.stamp n
  | sendWithTimestamp n toNodeId => exact h.post .request n toNodeId
  | receive k =>
    simp only [Nodes.handle]
    cases htake : takeAt k s.network with
    | none => exact h
    | some taken =>
      obtain ⟨message, rest⟩ := taken
      have hmem := mem_takeAt htake
      have hrest := h.drop (fun other ho => (hmem other).mpr (.inr ho)) s.handlers
      exact hrest.receive (h.sent message ((hmem message).mpr (.inl rfl)))
  | respond k =>
    simp only [Nodes.handle]
    cases takeAt k s.handlers with
    | none => exact h
    | some taken => exact (h.drop (List.Subset.refl _) taken.2).post .response taken.1.1 taken.1.2
  | fail k =>
    simp only [Nodes.handle]
    cases takeAt k s.handlers with
    | none => exact h
    | some taken => exact h.drop (List.Subset.refl _) taken.2
  | lose k =>
    simp only [Nodes.handle]
    cases htake : takeAt k s.network with
    | none => exact h
    | some taken =>
      exact h.drop (fun other ho => (mem_takeAt htake other).mpr (.inr ho)) s.handlers

end

theorem accounted_run (xs : List (ClockInput N)) :
    Accounted ((clockMachine N).run (clockMachine N).initial xs) :=
  invariant_run Accounted (fun _ x h _ => h.handle x)
    (valid_of_enabled (fun _ _ => trivial) _ xs) accounted_initial

/-- In every run, of two events in which timestamps were taken the one that happens before the
other has the smaller timestamp. -/
theorem isOlderThan_of_happensBefore (xs : List (ClockInput N)) {i j : ℕ} {e f : Event N}
    {t u : LogicalTimestamp}
    (hij : HappensBefore (reading N) ((clockMachine N).run (clockMachine N).initial xs).history i j)
    (he : ((clockMachine N).run (clockMachine N).initial xs).history[i]? = some e)
    (hf : ((clockMachine N).run (clockMachine N).initial xs).history[j]? = some f)
    (ht : e.timestamp = some t) (hu : f.timestamp = some u) : t.isOlderThan u = true := by
  have h := accounted_run xs
  have hlt := h.clocked.lt_of_happensBefore hij he hf
  have hte := h.taken e (List.mem_of_getElem? he) t ht
  have huf := h.taken f (List.mem_of_getElem? hf) u hu
  apply decide_eq_true
  rw [hte, huf]
  exact hlt

/-- Node 0 updates a bucket and asks node 1, which answers after an update of its own; then node 0
updates again. -/
def askedOnce : List (ClockInput ℕ) :=
  [.update 0, .sendWithTimestamp 0 1, .update 1, .receive 0, .update 1, .respond 0, .receive 0,
    .update 0]

theorem isOlderThan_askedOnce :
    let history := ((clockMachine ℕ).run (clockMachine ℕ).initial askedOnce).history
    HappensBefore (reading ℕ) history 1 7 ∧ history[1]? = some ⟨0, ⟨2⟩, none, some ⟨2⟩⟩ ∧
      history[7]? = some ⟨0, ⟨7⟩, none, some ⟨7⟩⟩ ∧
      (⟨2⟩ : LogicalTimestamp).isOlderThan ⟨7⟩ = true := by
  intro history
  have hsend : history[1]? = some ⟨0, ⟨2⟩, none, some ⟨2⟩⟩ := rfl
  have harrive : history[3]? = some ⟨1, ⟨3⟩, some 1, none⟩ := rfl
  have hrespond : history[5]? = some ⟨1, ⟨5⟩, none, some ⟨5⟩⟩ := rfl
  have hreturn : history[6]? = some ⟨0, ⟨6⟩, some 5, none⟩ := rfl
  have hupdate : history[7]? = some ⟨0, ⟨7⟩, none, some ⟨7⟩⟩ := rfl
  have hasked : Precedes (reading ℕ) history 1 3 := ⟨_, _, hsend, harrive, .inr rfl⟩
  have hhandled : Precedes (reading ℕ) history 3 5 :=
    ⟨_, _, harrive, hrespond, .inl ⟨by decide, rfl⟩⟩
  have hanswered : Precedes (reading ℕ) history 5 6 := ⟨_, _, hrespond, hreturn, .inr rfl⟩
  have hlater : Precedes (reading ℕ) history 6 7 :=
    ⟨_, _, hreturn, hupdate, .inl ⟨by decide, rfl⟩⟩
  have hchain : HappensBefore (reading ℕ) history 1 7 :=
    (((Relation.TransGen.single hasked).tail hhandled).tail hanswered).tail hlater
  exact ⟨hchain, hsend, hupdate,
    isOlderThan_of_happensBefore askedOnce hchain hsend hupdate rfl rfl⟩

end FlowStoreClock
