import Mathlib.Data.Fin.Basic
import Mathlib.Data.Set.Basic

/-! Flow buckets of one device, their digests and the logical clock that stamps them.
A bucket maps a flow identifier and a rule to the stored entry; an absent inner map and an
empty one are the same function. Every stored entry is a `DefaultFlowEntry`. -/
namespace FlowStoreBucket

structure LogicalTimestamp where
  value : ℕ
  deriving DecidableEq, Repr

def LogicalTimestamp.isNewerThan (t o : LogicalTimestamp) : Bool := o.value < t.value
def LogicalTimestamp.isOlderThan (t o : LogicalTimestamp) : Bool := t.value < o.value

structure LogicalClock where
  timestamp : ℕ
  deriving DecidableEq, Repr

def LogicalClock.tick (c : LogicalClock) (t : LogicalTimestamp) : LogicalClock :=
  ⟨max c.timestamp t.value + 1⟩

def LogicalClock.getTimestamp (c : LogicalClock) : LogicalTimestamp × LogicalClock :=
  (⟨c.timestamp + 1⟩, ⟨c.timestamp + 1⟩)

abbrev FlowId := ℤ

def NUM_BUCKETS : ℕ := 128

abbrev BucketNo := Fin NUM_BUCKETS

def bucket (flowId : FlowId) : BucketNo :=
  ⟨(flowId.tmod NUM_BUCKETS).natAbs, by
    have h := Int.natAbs_tmod flowId NUM_BUCKETS
    rw [h]; exact Nat.mod_lt _ (by decide)⟩

/-- `rule` stands for what `DefaultFlowRule.equals` compares: device, priority, selector and
table. `data` is the mutable rest: state, life, counters, treatment. -/
structure FlowEntry (ρ δ : Type*) where
  id : FlowId
  rule : ρ
  created : ℕ
  data : δ
  deriving DecidableEq, Repr

abbrev FlowEntries (ρ δ : Type*) := FlowId → ρ → Option (FlowEntry ρ δ)

structure FlowBucket (ρ δ : Type*) where
  bucketId : BucketNo
  term : ℕ
  timestamp : LogicalTimestamp
  flowBucket : FlowEntries ρ δ

structure FlowBucketDigest where
  bucket : BucketNo
  term : ℕ
  timestamp : LogicalTimestamp
  deriving DecidableEq, Repr

def FlowBucketDigest.isNewerThan (d : FlowBucketDigest) : Option FlowBucketDigest → Bool
  | none => true
  | some o => o.term < d.term || d.timestamp.isNewerThan o.timestamp

section Bucket

variable {ρ δ : Type*} [DecidableEq ρ]

def FlowBucket.empty (i : BucketNo) : FlowBucket ρ δ := ⟨i, 0, ⟨0⟩, fun _ _ => none⟩

def FlowBucket.getDigest (b : FlowBucket ρ δ) : FlowBucketDigest :=
  ⟨b.bucketId, b.term, b.timestamp⟩

def FlowEntries.set (m : FlowEntries ρ δ) (id : FlowId) (rule : ρ)
    (e : Option (FlowEntry ρ δ)) : FlowEntries ρ δ :=
  Function.update m id (Function.update (m id) rule e)

def FlowBucket.recordUpdate (b : FlowBucket ρ δ) (term : ℕ) (timestamp : LogicalTimestamp) :
    FlowBucket ρ δ := { b with term := term, timestamp := timestamp }

def FlowBucket.add (b : FlowBucket ρ δ) (rule : FlowEntry ρ δ) (term : ℕ)
    (clock : LogicalClock) : FlowBucket ρ δ × LogicalClock :=
  let b' := { b with flowBucket := b.flowBucket.set rule.id rule.rule (some rule) }
  (b'.recordUpdate term clock.getTimestamp.1, clock.getTimestamp.2)

def FlowBucket.update (b : FlowBucket ρ δ) (rule : FlowEntry ρ δ) (term : ℕ)
    (clock : LogicalClock) : FlowBucket ρ δ × LogicalClock :=
  match b.flowBucket rule.id rule.rule with
  | none => (b, clock)
  | some stored =>
    if stored.created ≤ rule.created then
      let b' := { b with flowBucket := b.flowBucket.set rule.id rule.rule (some rule) }
      (b'.recordUpdate term clock.getTimestamp.1, clock.getTimestamp.2)
    else (b, clock)

/-- The function mutates the stored entry and returns a result, or does neither. -/
def FlowBucket.updateWith (b : FlowBucket ρ δ) (id : FlowId) (rule : ρ)
    (function : FlowEntry ρ δ → Option δ) (term : ℕ) (clock : LogicalClock) :
    FlowBucket ρ δ × LogicalClock :=
  match b.flowBucket id rule with
  | none => (b, clock)
  | some stored =>
    match function stored with
    | none => (b, clock)
    | some result =>
      let b' := { b with
        flowBucket := b.flowBucket.set id rule (some { stored with data := result }) }
      (b'.recordUpdate term clock.getTimestamp.1, clock.getTimestamp.2)

/-- Returns the removed entry as well. An older removal leaves a newer entry alone. -/
def FlowBucket.remove (b : FlowBucket ρ δ) (rule : FlowEntry ρ δ) (term : ℕ)
    (clock : LogicalClock) : FlowBucket ρ δ × LogicalClock × Option (FlowEntry ρ δ) :=
  match b.flowBucket rule.id rule.rule with
  | none => (b, clock, none)
  | some stored =>
    if rule.created < stored.created then (b, clock, none)
    else
      let b' := { b with flowBucket := b.flowBucket.set rule.id rule.rule none }
      (b'.recordUpdate term clock.getTimestamp.1, clock.getTimestamp.2, some stored)

def FlowBucket.purge (b : FlowBucket ρ δ) : FlowBucket ρ δ :=
  { b with flowBucket := fun _ _ => none }

def FlowBucket.clear (b : FlowBucket ρ δ) : FlowBucket ρ δ :=
  { b with term := 0, timestamp := ⟨0⟩, flowBucket := fun _ _ => none }

inductive FlowOp (ρ δ : Type*) where
  | add (rule : FlowEntry ρ δ)
  | update (rule : FlowEntry ρ δ)
  | updateWith (id : FlowId) (rule : ρ) (function : FlowEntry ρ δ → Option δ)
  | remove (rule : FlowEntry ρ δ)

def FlowOp.flowId : FlowOp ρ δ → FlowId
  | .add rule | .update rule | .remove rule => rule.id
  | .updateWith id _ _ => id

def FlowOp.run (op : FlowOp ρ δ) (b : FlowBucket ρ δ) (term : ℕ) (clock : LogicalClock) :
    FlowBucket ρ δ × LogicalClock :=
  match op with
  | .add rule => b.add rule term clock
  | .update rule => b.update rule term clock
  | .updateWith id rule function => b.updateWith id rule function term clock
  | .remove rule => ((b.remove rule term clock).1, (b.remove rule term clock).2.1)

/-- What an operation means for the entries of a bucket, or nothing when it is not recorded. -/
def FlowOp.effect (op : FlowOp ρ δ) (m : FlowEntries ρ δ) : Option (FlowEntries ρ δ) :=
  match op with
  | .add rule => some (m.set rule.id rule.rule (some rule))
  | .update rule => (m rule.id rule.rule).bind fun stored =>
      if stored.created ≤ rule.created then some (m.set rule.id rule.rule (some rule)) else none
  | .updateWith id rule function => (m id rule).bind fun stored =>
      (function stored).map fun result => m.set id rule (some { stored with data := result })
  | .remove rule => (m rule.id rule.rule).bind fun stored =>
      if rule.created < stored.created then none else some (m.set rule.id rule.rule none)

def FlowOp.applyTo (op : FlowOp ρ δ) (m : FlowEntries ρ δ) : FlowEntries ρ δ :=
  (op.effect m).getD m

theorem run_cases (op : FlowOp ρ δ) (b : FlowBucket ρ δ) (term : ℕ) (clock : LogicalClock) :
    (op.effect b.flowBucket = none ∧ op.run b term clock = (b, clock)) ∨
    (∃ m, op.effect b.flowBucket = some m ∧
      op.run b term clock =
        (⟨b.bucketId, term, ⟨clock.timestamp + 1⟩, m⟩, ⟨clock.timestamp + 1⟩)) := by
  cases op with
  | add rule => exact Or.inr ⟨_, rfl, rfl⟩
  | update rule =>
    cases hs : b.flowBucket rule.id rule.rule with
    | none => left; simp [FlowOp.effect, FlowOp.run, FlowBucket.update, hs]
    | some stored =>
      by_cases hc : stored.created ≤ rule.created
      · right; simp [FlowOp.effect, FlowOp.run, FlowBucket.update, hs, hc,
          FlowBucket.recordUpdate, LogicalClock.getTimestamp]
      · left; simp [FlowOp.effect, FlowOp.run, FlowBucket.update, hs, hc]
  | updateWith id rule function =>
    cases hs : b.flowBucket id rule with
    | none => left; simp [FlowOp.effect, FlowOp.run, FlowBucket.updateWith, hs]
    | some stored =>
      cases hr : function stored with
      | none => left; simp [FlowOp.effect, FlowOp.run, FlowBucket.updateWith, hs, hr]
      | some result => right; simp [FlowOp.effect, FlowOp.run, FlowBucket.updateWith, hs, hr,
          FlowBucket.recordUpdate, LogicalClock.getTimestamp]
  | remove rule =>
    cases hs : b.flowBucket rule.id rule.rule with
    | none => left; simp [FlowOp.effect, FlowOp.run, FlowBucket.remove, hs]
    | some stored =>
      by_cases hc : rule.created < stored.created
      · left; simp [FlowOp.effect, FlowOp.run, FlowBucket.remove, hs, hc]
      · right; simp [FlowOp.effect, FlowOp.run, FlowBucket.remove, hs, hc,
          FlowBucket.recordUpdate, LogicalClock.getTimestamp]

@[simp] theorem run_bucketId (op : FlowOp ρ δ) (b : FlowBucket ρ δ) (term : ℕ)
    (clock : LogicalClock) : (op.run b term clock).1.bucketId = b.bucketId := by
  rcases run_cases op b term clock with ⟨_, h⟩ | ⟨m, _, h⟩ <;> rw [h]

@[simp] theorem run_flowBucket (op : FlowOp ρ δ) (b : FlowBucket ρ δ) (term : ℕ)
    (clock : LogicalClock) :
    (op.run b term clock).1.flowBucket = op.applyTo b.flowBucket := by
  rcases run_cases op b term clock with ⟨he, h⟩ | ⟨m, he, h⟩ <;> simp [h, FlowOp.applyTo, he]

theorem run_term (op : FlowOp ρ δ) (b : FlowBucket ρ δ) (term : ℕ) (clock : LogicalClock) :
    (op.run b term clock).1.term =
      if (op.effect b.flowBucket).isSome then term else b.term := by
  rcases run_cases op b term clock with ⟨he, h⟩ | ⟨m, he, h⟩ <;> simp [h, he]

end Bucket

section Digest

theorem newer_iff (d o : FlowBucketDigest) : d.isNewerThan (some o) = true ↔
    o.term < d.term ∨ o.timestamp.value < d.timestamp.value := by
  simp [FlowBucketDigest.isNewerThan, LogicalTimestamp.isNewerThan]

@[simp] theorem newer_irrefl (d : FlowBucketDigest) : d.isNewerThan (some d) = false := by
  simp [FlowBucketDigest.isNewerThan, LogicalTimestamp.isNewerThan]

def Concordant (S : Set FlowBucketDigest) : Prop :=
  ∀ d ∈ S, ∀ e ∈ S, d.term < e.term → d.timestamp.value ≤ e.timestamp.value

structure StrictOrderOn (S : Set FlowBucketDigest) : Prop where
  irrefl : ∀ d ∈ S, d.isNewerThan (some d) = false
  trans : ∀ d ∈ S, ∀ e ∈ S, ∀ f ∈ S, d.isNewerThan (some e) = true →
    e.isNewerThan (some f) = true → d.isNewerThan (some f) = true
  asymm : ∀ d ∈ S, ∀ e ∈ S, d.isNewerThan (some e) = true → e.isNewerThan (some d) = false

theorem strictOrder_iff_concordant (S : Set FlowBucketDigest) : StrictOrderOn S ↔ Concordant S := by
  constructor
  · intro h d hd e he hlt
    by_contra hts
    have hed := (newer_iff e d).mpr (Or.inl hlt)
    have hde := (newer_iff d e).mpr (Or.inr (by omega))
    simp [h.asymm e he d hd hed] at hde
  · intro h
    refine ⟨fun d _ => newer_irrefl d, ?_, ?_⟩
    · intro d hd e he f hf hde hef
      rw [newer_iff] at hde hef ⊢
      have h₁ := h e he d hd
      have h₂ := h f hf e he
      omega
    · intro d hd e he hde
      rw [Bool.eq_false_iff]
      intro hed
      rw [newer_iff] at hde hed
      have h₁ := h d hd e he
      have h₂ := h e he d hd
      omega

end Digest

end FlowStoreBucket
