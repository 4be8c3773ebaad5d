import Squeaknode.Db.Queries
import Squeaknode.Db.Operations

/-!
# Resuming a received-payment subscription

A subscriber to received payments calls `yield_received_payments_from_index(i)`
again and again, and moves `i` to the largest `received_payment_id` it has been
yielded. Concurrent `insert_received_payment` transactions draw their id from
the table's sequence when the insert runs, and their row becomes visible when
they commit: two steps, and transactions commit in any order.

`subscription_runs`: in every interleaving, the subscriber is yielded committed
payments only, each once, in strictly increasing id order, with ids above its
start index and at most its cursor. Every committed payment between the start
index and the cursor has been yielded, unless its transaction committed after
the cursor had passed its id (`LateCommit`); that cannot happen when
transactions commit in the order they drew their ids. `late_commit_skipped` is
an interleaving with a late commit: the payment lies below the cursor and is
never yielded.

The subscriber's loop is modelled from the specification: the controller that
runs it is not among the sources.
-/

namespace Squeaknode

/-- An `insert_received_payment` transaction that has drawn its id and not yet
committed. -/
structure PendingInsert where
  id : Nat
  now : Int
  payment : ReceivedPayment
  deriving DecidableEq, Repr

/-- The received-payment table with the transactions in flight, and one
subscriber: the index it started from, its cursor, and what it was yielded. -/
structure SubState where
  store : Store
  pending : List PendingInsert
  pending_lt : ∀ p ∈ pending, p.id < store.receivedPayments.nextId
  start : Nat
  cursor : Nat
  yielded : List ReceivedPayment

/-- The steps of an interleaving: a transaction draws an id, a transaction
commits, the subscriber polls. -/
inductive SubEvent
  | allocate (now : Int) (rp : ReceivedPayment)
  | commit (id : Nat)
  | poll
  deriving DecidableEq, Repr

def ReceivedPayment.yieldedId (p : ReceivedPayment) : Nat := p.receivedPaymentId.getD 0

@[simp] theorem yieldedId_parseReceivedPayment (r : ReceivedPaymentRow) :
    (parseReceivedPayment r).yieldedId = r.receivedPaymentId := rfl

/-- Modelled from the spec: the controller's subscription loop
(`subscribe_received_payments`) is not among the sources. The subscriber's next
index is the largest id it was yielded, or its index when it was yielded
nothing. -/
def advanceIndex (i : Nat) (ys : List ReceivedPayment) : Nat :=
  ys.foldl (fun i p => max i p.yieldedId) i

def SubState.init (start : Nat) : SubState :=
  ⟨Store.empty, [], (fun _ h => nomatch h), start, start, []⟩

def SubState.step (s : SubState) : SubEvent → SubState
  | .allocate now rp =>
    { s with
      store := { s.store with receivedPayments := s.store.receivedPayments.allocate }
      pending := s.pending ++ [⟨s.store.receivedPayments.nextId, now, rp⟩]
      pending_lt := fun p hp => by
        rcases List.mem_append.mp hp with hp | hp
        · exact Nat.lt_succ_of_lt (s.pending_lt p hp)
        · rw [List.mem_singleton.mp hp]; exact Nat.lt_succ_self _ }
  | .commit id =>
    match hp : s.pending.find? (·.id == id) with
    | none => s
    | some p =>
      if h : p.payment.paymentHash ∈ s.store.receivedPayments.rows.map ReceivedPaymentRow.paymentHash then
        { s with
          pending := s.pending.filter (·.id != id)
          pending_lt := fun q hq => s.pending_lt q (List.mem_filter.mp hq).1 }
      else
        { s with
          store := { s.store with receivedPayments := (s.store.receivedPayments.commit
            (newReceivedPaymentRow p.id p.now p.payment) h
            (s.pending_lt p (List.mem_of_find?_eq_some hp))) }
          pending := s.pending.filter (·.id != id)
          pending_lt := fun q hq => s.pending_lt q (List.mem_filter.mp hq).1 }
  | .poll =>
    { s with
      cursor := advanceIndex s.cursor (yieldReceivedPaymentsFromIndex s.store s.cursor)
      yielded := s.yielded ++ yieldReceivedPaymentsFromIndex s.store s.cursor }

/-- The states the interleavings reach whose every step `ok` allows. -/
inductive SubReachable (ok : SubState → SubEvent → Prop) : SubState → Prop
  | init (start : Nat) : SubReachable ok (SubState.init start)
  | step {s : SubState} (e : SubEvent) : SubReachable ok s → ok s e → SubReachable ok (s.step e)

/-- A commit that lands after the subscriber's cursor has passed its id. -/
def LateCommit (s : SubState) : SubEvent → Prop
  | .commit id => (∃ p ∈ s.pending, p.id = id) ∧ s.start < id ∧ id ≤ s.cursor
  | _ => False

/-- Transactions commit in the order they drew their ids. -/
def InIdOrder (s : SubState) : SubEvent → Prop
  | .commit id => ∀ p ∈ s.pending, id ≤ p.id
  | _ => True

/-- What the subscriber was yielded: committed payments, in strictly increasing
id order, with ids above its start index and at most its cursor. -/
structure SubscriberSafe (s : SubState) : Prop where
  increasing : s.yielded.Pairwise fun a b => a.yieldedId < b.yieldedId
  committed : ∀ p ∈ s.yielded, ∃ r ∈ s.store.receivedPayments.rows, parseReceivedPayment r = p
  window : ∀ p ∈ s.yielded, s.start < p.yieldedId ∧ p.yieldedId ≤ s.cursor

/-- Every committed payment above the start index and at most the cursor has
been yielded. -/
def SubscriberComplete (s : SubState) : Prop :=
  ∀ r ∈ s.store.receivedPayments.rows, s.start < r.receivedPaymentId →
    r.receivedPaymentId ≤ s.cursor → parseReceivedPayment r ∈ s.yielded

-- ---------------------------------------------------------------------------
-- One poll
-- ---------------------------------------------------------------------------

theorem mem_yieldReceivedPaymentsFromIndex {st : Store} {i : Nat} {p : ReceivedPayment} :
    p ∈ yieldReceivedPaymentsFromIndex st i ↔
      ∃ r ∈ st.receivedPayments.rows, i < r.receivedPaymentId ∧ parseReceivedPayment r = p := by
  simp only [yieldReceivedPaymentsFromIndex, List.mem_map, mem_orderAsc, List.mem_filter,
    decide_eq_true_eq, and_assoc]

theorem yieldReceivedPaymentsFromIndex_pairwise {st : Store} (i : Nat)
    (hids : (st.receivedPayments.rows.map ReceivedPaymentRow.receivedPaymentId).Nodup) :
    (yieldReceivedPaymentsFromIndex st i).Pairwise fun a b => a.yieldedId < b.yieldedId := by
  rw [yieldReceivedPaymentsFromIndex, List.pairwise_map]
  exact orderAsc_pairwise (hids.sublist ((List.filter_sublist _).map _))

theorem advanceIndex_cons (i : Nat) (y : ReceivedPayment) (ys : List ReceivedPayment) :
    advanceIndex i (y :: ys) = advanceIndex (max i y.yieldedId) ys := rfl

theorem le_advanceIndex (i : Nat) (ys : List ReceivedPayment) : i ≤ advanceIndex i ys := by
  induction ys generalizing i with
  | nil => exact le_rfl
  | cons y ys ih => exact (le_max_left _ _).trans (ih _)

theorem yieldedId_le_advanceIndex {ys : List ReceivedPayment} {p : ReceivedPayment} (hp : p ∈ ys)
    (i : Nat) : p.yieldedId ≤ advanceIndex i ys := by
  induction ys generalizing i with
  | nil => cases hp
  | cons y ys ih =>
    rw [advanceIndex_cons]
    rcases List.mem_cons.mp hp with rfl | hp
    · exact (le_max_right _ _).trans (le_advanceIndex _ _)
    · exact ih hp _

theorem advanceIndex_eq (i : Nat) (ys : List ReceivedPayment) :
    advanceIndex i ys = i ∨ ∃ p ∈ ys, advanceIndex i ys = p.yieldedId := by
  induction ys generalizing i with
  | nil => exact .inl rfl
  | cons y ys ih =>
    rw [advanceIndex_cons]
    rcases ih (max i y.yieldedId) with h | ⟨p, hp, h⟩
    · rcases le_total y.yieldedId i with hm | hm
      · exact .inl (h.trans (Nat.max_eq_left hm))
      · exact .inr ⟨y, List.mem_cons_self _ _, h.trans (Nat.max_eq_right hm)⟩
    · exact .inr ⟨p, List.mem_cons_of_mem _ hp, h⟩

-- ---------------------------------------------------------------------------
-- What each step does
-- ---------------------------------------------------------------------------

section Steps

variable (s : SubState)

@[simp] theorem step_allocate_rows (now : Int) (rp : ReceivedPayment) :
    (s.step (.allocate now rp)).store.receivedPayments.rows = s.store.receivedPayments.rows := rfl

@[simp] theorem step_poll_store : (s.step .poll).store = s.store := rfl

@[simp] theorem step_poll_pending : (s.step .poll).pending = s.pending := rfl

theorem step_commit (id : Nat) :
    (s.step (.commit id)).start = s.start ∧ (s.step (.commit id)).cursor = s.cursor ∧
      (s.step (.commit id)).yielded = s.yielded ∧
      (s.step (.commit id)).store.receivedPayments.nextId = s.store.receivedPayments.nextId ∧
      (s.step (.commit id)).pending = s.pending.filter (·.id != id) ∧
      ((s.step (.commit id)).store.receivedPayments.rows = s.store.receivedPayments.rows ∨
        ∃ p ∈ s.pending, p.id = id ∧
          p.payment.paymentHash ∉ s.store.receivedPayments.rows.map ReceivedPaymentRow.paymentHash ∧
          (s.step (.commit id)).store.receivedPayments.rows =
            s.store.receivedPayments.rows ++ [newReceivedPaymentRow id p.now p.payment]) := by
  simp only [SubState.step]
  split
  · next hp =>
    have hnone : s.pending.filter (·.id != id) = s.pending := by
      rw [List.filter_eq_self]
      intro q hq
      simpa using List.find?_eq_none.mp hp q hq
    exact ⟨rfl, rfl, rfl, rfl, hnone.symm, .inl rfl⟩
  · next p hp =>
    have hpid : p.id = id := by simpa using List.find?_some hp
    split
    · exact ⟨rfl, rfl, rfl, rfl, rfl, .inl rfl⟩
    · next hh =>
      refine ⟨rfl, rfl, rfl, rfl, rfl, .inr ⟨p, List.mem_of_find?_eq_some hp, hpid, hh, ?_⟩⟩
      subst hpid; rfl

end Steps

-- ---------------------------------------------------------------------------
-- Every interleaving is safe
-- ---------------------------------------------------------------------------

/-- What every interleaving keeps: ids are unique among the rows and among the
transactions in flight, no transaction in flight holds a committed id, the
cursor is at least the start, and the subscriber is safe. -/
structure SubInv (s : SubState) : Prop where
  ids_nodup : (s.store.receivedPayments.rows.map ReceivedPaymentRow.receivedPaymentId).Nodup
  pending_nodup : (s.pending.map PendingInsert.id).Nodup
  pending_fresh : ∀ p ∈ s.pending,
    p.id ∉ s.store.receivedPayments.rows.map ReceivedPaymentRow.receivedPaymentId
  start_le : s.start ≤ s.cursor
  safe : SubscriberSafe s

theorem subInv_init (start : Nat) : SubInv (SubState.init start) :=
  ⟨List.nodup_nil, List.nodup_nil, (fun _ h => nomatch h), le_rfl,
    ⟨List.Pairwise.nil, (fun _ h => nomatch h), fun _ h => nomatch h⟩⟩

theorem not_mem_ids_nextId (t : ReceivedPaymentTable) :
    t.nextId ∉ t.rows.map ReceivedPaymentRow.receivedPaymentId := fun hm => by
  obtain ⟨r, hr, he⟩ := List.mem_map.mp hm
  exact absurd (t.id_lt r hr) (he ▸ lt_irrefl _)

theorem subInv_allocate {s : SubState} (h : SubInv s) (now : Int) (rp : ReceivedPayment) :
    SubInv (s.step (.allocate now rp)) := by
  refine ⟨h.ids_nodup, nodup_map_append_singleton h.pending_nodup fun hm => ?_, fun q hq => ?_,
    h.start_le, ⟨h.safe.increasing, h.safe.committed, h.safe.window⟩⟩
  · obtain ⟨q, hq, he⟩ := List.mem_map.mp hm
    exact absurd (s.pending_lt q hq) (he ▸ lt_irrefl _)
  · rcases List.mem_append.mp hq with hq | hq
    · exact h.pending_fresh q hq
    · rw [List.mem_singleton.mp hq]; exact not_mem_ids_nextId _

theorem subInv_commit {s : SubState} (h : SubInv s) (id : Nat) : SubInv (s.step (.commit id)) := by
  obtain ⟨hstart, hcur, hyield, -, hpend, hrows⟩ := step_commit s id
  have hsub : ∀ r ∈ s.store.receivedPayments.rows, r ∈ (s.step (.commit id)).store.receivedPayments.rows :=
    fun r hr => by rcases hrows with hrows | ⟨_, _, _, _, hrows⟩ <;> simp [hrows, hr]
  refine ⟨?_, ?_, fun q hq => ?_, hstart ▸ hcur ▸ h.start_le, ⟨?_, ?_, ?_⟩⟩
  · rcases hrows with hrows | ⟨p, hp, rfl, -, hrows⟩ <;> rw [hrows]
    · exact h.ids_nodup
    · exact nodup_map_append_singleton h.ids_nodup (h.pending_fresh p hp)
  · rw [hpend]; exact h.pending_nodup.sublist ((List.filter_sublist _).map _)
  · rw [hpend, List.mem_filter, bne_iff_ne] at hq
    rcases hrows with hrows | ⟨p, hp, rfl, -, hrows⟩ <;> rw [hrows]
    · exact h.pending_fresh q hq.1
    · simpa [newReceivedPaymentRow, hq.2] using h.pending_fresh q hq.1
  · rw [hyield]; exact h.safe.increasing
  · rw [hyield]
    intro p hp
    obtain ⟨r, hr, he⟩ := h.safe.committed p hp
    exact ⟨r, hsub r hr, he⟩
  · rw [hyield, hstart, hcur]; exact h.safe.window

theorem subInv_poll {s : SubState} (h : SubInv s) : SubInv (s.step .poll) := by
  have hys := yieldReceivedPaymentsFromIndex_pairwise s.cursor h.ids_nodup
  refine ⟨h.ids_nodup, h.pending_nodup, h.pending_fresh, h.start_le.trans (le_advanceIndex _ _),
    ⟨List.pairwise_append.mpr ⟨h.safe.increasing, hys, fun a ha b hb => ?_⟩, fun p hp => ?_,
      fun p hp => ?_⟩⟩
  · obtain ⟨r, -, hlt, rfl⟩ := mem_yieldReceivedPaymentsFromIndex.mp hb
    exact (h.safe.window a ha).2.trans_lt hlt
  · rcases List.mem_append.mp hp with hp | hp
    · exact h.safe.committed p hp
    · obtain ⟨r, hr, -, rfl⟩ := mem_yieldReceivedPaymentsFromIndex.mp hp
      exact ⟨r, hr, rfl⟩
  · rcases List.mem_append.mp hp with hp | hp
    · exact ⟨(h.safe.window p hp).1, (h.safe.window p hp).2.trans (le_advanceIndex _ _)⟩
    · refine ⟨?_, yieldedId_le_advanceIndex hp _⟩
      obtain ⟨r, -, hlt, rfl⟩ := mem_yieldReceivedPaymentsFromIndex.mp hp
      exact h.start_le.trans_lt hlt

theorem SubInv.step {s : SubState} (h : SubInv s) : ∀ e, SubInv (s.step e)
  | .allocate now rp => subInv_allocate h now rp
  | .commit id => subInv_commit h id
  | .poll => subInv_poll h

theorem SubReachable.subInv {ok : SubState → SubEvent → Prop} {s : SubState}
    (h : SubReachable ok s) : SubInv s := by
  induction h with
  | init start => exact subInv_init start
  | step e _ _ ih => exact ih.step e

-- ---------------------------------------------------------------------------
-- Completeness without late commits
-- ---------------------------------------------------------------------------

theorem complete_step {s : SubState} (hc : SubscriberComplete s) :
    ∀ e, ¬ LateCommit s e → SubscriberComplete (s.step e)
  | .allocate _ _, _ => hc
  | .commit id, hlate => by
    obtain ⟨hstart, hcur, hyield, -, -, hrows⟩ := step_commit s id
    intro r hr hlo hhi
    rw [hstart] at hlo; rw [hcur] at hhi; rw [hyield]
    rcases hrows with hrows | ⟨p, hp, rfl, -, hrows⟩
    · exact hc r (hrows ▸ hr) hlo hhi
    · rw [hrows] at hr
      rcases List.mem_append.mp hr with hr | hr
      · exact hc r hr hlo hhi
      · rw [List.mem_singleton.mp hr] at hlo hhi
        exact absurd ⟨⟨p, hp, rfl⟩, hlo, hhi⟩ hlate
  | .poll, _ => fun r hr hlo hhi => by
    by_cases hle : r.receivedPaymentId ≤ s.cursor
    · exact List.mem_append_left _ (hc r hr hlo hle)
    · exact List.mem_append_right _
        (mem_yieldReceivedPaymentsFromIndex.mpr ⟨r, hr, Nat.lt_of_not_le hle, rfl⟩)

/-- Every committed payment between the start index and the cursor has been
yielded, in each interleaving whose steps include no late commit. -/
theorem SubReachable.complete {ok : SubState → SubEvent → Prop} {s : SubState}
    (h : SubReachable ok s) (hok : ∀ s e, SubReachable ok s → ok s e → ¬ LateCommit s e) :
    SubscriberComplete s := by
  induction h with
  | init start => exact fun _ hr => nomatch hr
  | step e hs he ih => exact complete_step ih e (hok _ e hs he)

-- ---------------------------------------------------------------------------
-- Commits in id order are never late
-- ---------------------------------------------------------------------------

/-- What commits in id order keep: committed ids are below every id in flight,
and the cursor is below every id in flight above the start. -/
structure OrderInv (s : SubState) : Prop where
  rows_lt : ∀ r ∈ s.store.receivedPayments.rows, ∀ p ∈ s.pending, r.receivedPaymentId < p.id
  cursor_lt : ∀ p ∈ s.pending, s.start < p.id → s.cursor < p.id
  cursor_bound : s.cursor ≤ s.start ∨ s.cursor < s.store.receivedPayments.nextId

theorem OrderInv.not_late {s : SubState} (h : OrderInv s) (e : SubEvent) : ¬ LateCommit s e := by
  cases e with
  | commit id =>
    rintro ⟨⟨p, hp, rfl⟩, hlo, hhi⟩
    exact absurd (h.cursor_lt p hp hlo) (not_lt.mpr hhi)
  | _ => exact id

theorem OrderInv.step {s : SubState} (h : OrderInv s) : ∀ e, InIdOrder s e → OrderInv (s.step e)
  | .allocate now rp, _ => by
    refine ⟨fun r hr q hq => ?_, fun q hq hlo => ?_, ?_⟩
    · rcases List.mem_append.mp hq with hq | hq
      · exact h.rows_lt r hr q hq
      · rw [List.mem_singleton.mp hq]; exact s.store.receivedPayments.id_lt r hr
    · rcases List.mem_append.mp hq with hq | hq
      · exact h.cursor_lt q hq hlo
      · rw [List.mem_singleton.mp hq] at hlo ⊢
        exact h.cursor_bound.elim (fun hle => hle.trans_lt hlo) id
    · exact h.cursor_bound.imp id Nat.lt_succ_of_lt
  | .commit id, hord => by
    obtain ⟨hstart, hcur, -, hnext, hpend, hrows⟩ := step_commit s id
    have hrest : ∀ q ∈ (s.step (.commit id)).pending, q ∈ s.pending ∧ id < q.id := fun q hq => by
      rw [hpend, List.mem_filter, bne_iff_ne] at hq
      exact ⟨hq.1, lt_of_le_of_ne (hord q hq.1) (Ne.symm hq.2)⟩
    refine ⟨fun r hr q hq => ?_, fun q hq hlo => ?_, ?_⟩
    · rcases hrows with hrows | ⟨p, hp, rfl, -, hrows⟩
      · exact h.rows_lt r (hrows ▸ hr) q (hrest q hq).1
      · rw [hrows] at hr
        rcases List.mem_append.mp hr with hr | hr
        · exact h.rows_lt r hr q (hrest q hq).1
        · rw [List.mem_singleton.mp hr]; exact (hrest q hq).2
    · rw [hcur]; rw [hstart] at hlo; exact h.cursor_lt q (hrest q hq).1 hlo
    · rw [hcur, hstart, hnext]; exact h.cursor_bound
  | .poll, _ => by
    have hcur : (s.step .poll).cursor =
        advanceIndex s.cursor (yieldReceivedPaymentsFromIndex s.store s.cursor) := rfl
    rcases advanceIndex_eq s.cursor (yieldReceivedPaymentsFromIndex s.store s.cursor) with
      heq | ⟨p, hp, heq⟩ <;> rw [heq] at hcur
    · exact ⟨h.rows_lt, fun q hq hlo => hcur ▸ h.cursor_lt q hq hlo, hcur ▸ h.cursor_bound⟩
    · obtain ⟨r, hr, -, rfl⟩ := mem_yieldReceivedPaymentsFromIndex.mp hp
      exact ⟨h.rows_lt, fun q hq _ => hcur ▸ h.rows_lt r hr q hq,
        .inr (hcur ▸ s.store.receivedPayments.id_lt r hr)⟩

theorem SubReachable.orderInv {s : SubState} (h : SubReachable InIdOrder s) : OrderInv s := by
  induction h with
  | init start => exact ⟨(fun _ hr => nomatch hr), (fun _ hp => nomatch hp), .inl le_rfl⟩
  | step e _ he ih => exact ih.step e he

-- ---------------------------------------------------------------------------
-- The subscription over every interleaving
-- ---------------------------------------------------------------------------

/-- Every interleaving leaves the subscriber safe; one without a late commit,
and in particular one whose transactions commit in the order they drew their
ids, also leaves no committed payment between its start index and its cursor
unyielded. -/
theorem subscription_runs :
    (∀ ok s, SubReachable ok s → SubscriberSafe s) ∧
    (∀ s, SubReachable (fun s e => ¬ LateCommit s e) s → SubscriberComplete s) ∧
    (∀ s, SubReachable InIdOrder s → SubscriberComplete s) :=
  ⟨fun _ _ h => h.subInv.safe, fun _ h => h.complete fun _ _ _ hok => hok,
    fun _ h => h.complete fun _ e hs _ => hs.orderInv.not_late e⟩

theorem SubReachable.foldl {s : SubState} (h : SubReachable (fun _ _ => True) s) :
    ∀ es : List SubEvent, SubReachable (fun _ _ => True) (es.foldl SubState.step s)
  | [] => h
  | e :: es => SubReachable.foldl (.step e h trivial) es

def paymentOf (paymentHash : Bytes) : ReceivedPayment :=
  ⟨none, none, [1], paymentHash, 1000, 0, ⟨"peer", 8555, false⟩⟩

/-- Two inserts draw the ids 1 and 2; the second commits first; the subscriber
polls from 0 and moves to 2; then the first commits, and the subscriber polls
again. -/
def lateCommitState : SubState :=
  [SubEvent.allocate 0 (paymentOf [1]), .allocate 0 (paymentOf [2]), .commit 2, .poll, .commit 1,
    .poll].foldl SubState.step (SubState.init 0)

/-- The payment with id 1 is committed, above the start index and below the
cursor, and was never yielded. -/
theorem late_commit_skipped :
    SubReachable (fun _ _ => True) lateCommitState ∧
      ∃ r ∈ lateCommitState.store.receivedPayments.rows,
        lateCommitState.start < r.receivedPaymentId ∧ r.receivedPaymentId ≤ lateCommitState.cursor ∧
        parseReceivedPayment r ∉ lateCommitState.yielded :=
  ⟨SubReachable.foldl (.init 0) _, by decide⟩

end Squeaknode
