import Squeaknode.Payments.ReceivedPayments
import Squeaknode.Lookups

/-!
# Payment lookups and summaries

`get_latest_settle_index` is `MAX(settle_index)` over the received payments,
`NULL` over none. The received-payment processor resumes its subscription to
settled invoices from it, and after `clear_received_payment_settle_indices`
replays every invoice from 0. `latestSettleIndex_replay`: a replay of payments
that are recorded leaves the latest settle index at 0, since each of its inserts
is refused for its payment hash, so the processor starts from 0 again until a
new payment arrives.

`get_sent_payment` fetches a sent payment by id, `get_sent_payment_summary`
counts and sums them.
-/

namespace Squeaknode

-- ---------------------------------------------------------------------------
-- The latest settle index
-- ---------------------------------------------------------------------------

/-- `get_latest_settle_index`: `MAX(settle_index)`, `None` over no rows. -/
def getLatestSettleIndex (st : Store) : Option Int :=
  (st.receivedPayments.rows.map ReceivedPaymentRow.settleIndex).max?

theorem replay_rows {st : Store} (hzero : ∀ r ∈ st.receivedPayments.rows, r.settleIndex = 0)
    (ops : List PaymentOp)
    (hreplay : ∀ now rp, PaymentOp.insert now rp ∈ ops →
      rp.paymentHash ∈ st.receivedPayments.rows.map ReceivedPaymentRow.paymentHash) :
    (runPaymentOps st ops).receivedPayments.rows.map ReceivedPaymentRow.paymentHash =
        st.receivedPayments.rows.map ReceivedPaymentRow.paymentHash ∧
      ∀ r ∈ (runPaymentOps st ops).receivedPayments.rows, r.settleIndex = 0 := by
  induction ops generalizing st with
  | nil => exact ⟨rfl, hzero⟩
  | cons op ops ih =>
    have hstep : (op.apply st).receivedPayments.rows.map ReceivedPaymentRow.paymentHash =
        st.receivedPayments.rows.map ReceivedPaymentRow.paymentHash ∧
        ∀ r ∈ (op.apply st).receivedPayments.rows, r.settleIndex = 0 := by
      cases op with
      | insert now rp =>
        rw [PaymentOp.apply, insertReceivedPayment_of_mem (hreplay now rp (List.mem_cons_self _ _))]
        exact ⟨rfl, hzero⟩
      | clear =>
        refine ⟨by simp [PaymentOp.apply, clearReceivedPaymentSettleIndices, List.map_map], ?_⟩
        simp [PaymentOp.apply, clearReceivedPaymentSettleIndices]
    obtain ⟨hhash, hzero'⟩ := hstep
    obtain ⟨hhash', hzero''⟩ := ih hzero' fun now rp hmem =>
      hhash ▸ hreplay now rp (List.mem_cons_of_mem _ hmem)
    exact ⟨hhash'.trans hhash, hzero''⟩

/-- After `clear_received_payment_settle_indices` on a table with payments, any
run of inserts of recorded payment hashes, and of further clears, leaves
`get_latest_settle_index` at 0. -/
theorem latestSettleIndex_replay (st : Store) (hne : st.receivedPayments.rows ≠ []) (ops : List PaymentOp)
    (hreplay : ∀ now rp, PaymentOp.insert now rp ∈ ops →
      rp.paymentHash ∈ st.receivedPayments.rows.map ReceivedPaymentRow.paymentHash) :
    getLatestSettleIndex (runPaymentOps st (.clear :: ops)) = some 0 := by
  have hcleared : ∀ r ∈ (PaymentOp.apply st .clear).receivedPayments.rows, r.settleIndex = 0 := by
    simp [PaymentOp.apply, clearReceivedPaymentSettleIndices]
  have hhashes : (PaymentOp.apply st .clear).receivedPayments.rows.map ReceivedPaymentRow.paymentHash =
      st.receivedPayments.rows.map ReceivedPaymentRow.paymentHash := by
    simp [PaymentOp.apply, clearReceivedPaymentSettleIndices, Function.comp_def]
  obtain ⟨hhash, hzero⟩ := replay_rows hcleared ops fun now rp hmem => hhashes ▸ hreplay now rp hmem
  have hlen : (runPaymentOps (PaymentOp.apply st .clear) ops).receivedPayments.rows.length =
      st.receivedPayments.rows.length := by
    simpa using congrArg List.length (hhash.trans hhashes)
  have hmap : (runPaymentOps (PaymentOp.apply st .clear) ops).receivedPayments.rows.map
      ReceivedPaymentRow.settleIndex =
      List.replicate (runPaymentOps (PaymentOp.apply st .clear) ops).receivedPayments.rows.length 0 :=
    List.eq_replicate_iff.mpr ⟨List.length_map _ _, fun b hb => by
      obtain ⟨r, hr, rfl⟩ := List.mem_map.mp hb
      exact hzero r hr⟩
  rw [runPaymentOps, List.foldl_cons, ← runPaymentOps, getLatestSettleIndex, hmap,
    List.max?_replicate_of_pos (max_self 0) (hlen ▸ List.length_pos.mpr hne)]

/-- A payment received with settle index 7. -/
def settledPayment : ReceivedPayment := ⟨none, none, [1], [2], 10, 7, ⟨"h", 1, false⟩⟩

theorem replayedSettleIndex :
    (insertReceivedPayment Store.empty 5 settledPayment).2.receivedPayments.rows ≠ [] ∧
      (∀ now rp, PaymentOp.insert now rp ∈ [PaymentOp.insert 6 settledPayment] →
        rp.paymentHash ∈ (insertReceivedPayment Store.empty 5 settledPayment).2.receivedPayments.rows.map
          ReceivedPaymentRow.paymentHash) ∧
      getLatestSettleIndex (runPaymentOps (insertReceivedPayment Store.empty 5 settledPayment).2
        [.clear, .insert 6 settledPayment]) = some 0 := by
  have hreplay : ∀ now rp, PaymentOp.insert now rp ∈ [PaymentOp.insert 6 settledPayment] →
      rp.paymentHash ∈ (insertReceivedPayment Store.empty 5 settledPayment).2.receivedPayments.rows.map
        ReceivedPaymentRow.paymentHash := fun now rp h => by
    simp only [List.mem_singleton, PaymentOp.insert.injEq] at h
    obtain ⟨-, rfl⟩ := h
    decide
  exact ⟨by decide, hreplay, latestSettleIndex_replay _ (by decide) _ hreplay⟩

-- ---------------------------------------------------------------------------
-- Sent payments
-- ---------------------------------------------------------------------------

structure SentPaymentSummary where
  numSentPayments : Nat
  totalAmountSentMsat : Option Int
  deriving DecidableEq, Repr

def getSentPayment (st : Store) (sentPaymentId : Nat) : Option SentPayment :=
  (st.sentPayments.rows.find? (·.sentPaymentId == sentPaymentId)).map parseSentPayment

/-- `get_sent_payment_summary`: `COUNT(*)` and `SUM(price_msat)`, the sum
`NULL` over no rows. -/
def getSentPaymentSummary (st : Store) : SentPaymentSummary where
  numSentPayments := st.sentPayments.rows.length
  totalAmountSentMsat :=
    if st.sentPayments.rows = [] then none else some (st.sentPayments.rows.map SentPaymentRow.priceMsat).sum

/-- `insert_sent_payment` read back: it fails exactly when the payment hash is
recorded; otherwise `get_sent_payment` gives the payment under the new id with
its creation time, every other id keeps its payment, and the summary counts one
more payment and adds its price. -/
theorem insertSentPayment_spec (st : Store) (now : Int) (sp : SentPayment) :
    match insertSentPayment st now sp with
    | none => sp.paymentHash ∈ st.sentPayments.rows.map SentPaymentRow.paymentHash
    | some (id, st') =>
      id = st.sentPayments.nextId ∧
        getSentPayment st' id = some { sp with sentPaymentId := some id, createdTimeMs := some now } ∧
        (∀ id', id' ≠ id → getSentPayment st' id' = getSentPayment st id') ∧
        getSentPaymentSummary st' =
          ⟨(getSentPaymentSummary st).numSentPayments + 1,
            some (((getSentPaymentSummary st).totalAmountSentMsat.getD 0) + sp.priceMsat)⟩ := by
  unfold insertSentPayment
  by_cases hrec : sp.paymentHash ∈ st.sentPayments.rows.map SentPaymentRow.paymentHash
  · rw [dif_pos hrec]
    exact hrec
  · rw [dif_neg hrec]
    dsimp only
    refine ⟨rfl, ?_, fun id' hid' => ?_, ?_⟩
    · rw [getSentPayment, List.find?_append,
        List.find?_eq_none.mpr fun r hr => by simpa using ne_of_lt (st.sentPayments.id_lt r hr)]
      simp [newSentPaymentRow]; rfl
    · simp only [getSentPayment, List.find?_append]
      simp [newSentPaymentRow, Ne.symm hid']
    · simp only [getSentPaymentSummary, List.length_append, List.length_singleton, List.append_eq_nil,
        List.cons_ne_nil, and_false, if_false, List.map_append, List.map_singleton, List.sum_append,
        List.sum_singleton, newSentPaymentRow]
      split <;> simp_all

end Squeaknode
