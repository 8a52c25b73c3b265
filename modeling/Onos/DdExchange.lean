import Onos.NeighborMachine

/-! The exchange of database descriptions, from the end of the negotiation on, with a peer that
answers. What is sent to the peer and when the exchange counts as done is recorded in order. -/
namespace NeighborMachine

open LinkStateDatabase LinkStateHeaders LsRequests

inductive DdEvent where
  | received (dataDescPkt : DdPacket)
  | sent (ddPacket : DdPacket)
  | exchangeDone

section Conversation

variable (a : Surroundings)

def OspfNbr.negotiate (s : OspfNbr) (neighborIsMaster : Bool) (payload : List LsaHeader) :
    OspfNbr × List DdEvent :=
  let t := s.negotiationDone a neighborIsMaster payload
  (t, if s.state = .EXSTART then t.lastSentDdPacket.toList.map .sent else [])

/-- A packet of the peer, with what is sent. The slave raises the event before it sends its last
packet. -/
def OspfNbr.answer (s : OspfNbr) (neighborIsMaster : Bool) (dataDescPkt : DdPacket) :
    OspfNbr × List DdEvent :=
  if neighborIsMaster then
    let s := OspfNbr.processLsas a { s with ddSeqNum := dataDescPkt.sequenceNo }
      dataDescPkt.lsaHeaderList
    let s := s.proceed a NOT_MASTER
    let sent := s.lastSentDdPacket.toList.map DdEvent.sent
    if s.lastSentDdPacket.map DdPacket.isMore = some MORE_NOTSET ∧ dataDescPkt.isMore = MORE_NOTSET then
      (s.exchangeDone a, .exchangeDone :: sent)
    else (s, sent)
  else
    let s := OspfNbr.processLsas a { s.stopRxMtDdTimer with ddSeqNum := s.ddSeqNum + 1 }
      dataDescPkt.lsaHeaderList
    if s.ddSummaryList.isEmpty ∧ dataDescPkt.isMore = MORE_NOTSET then
      (s.exchangeDone a, [.exchangeDone])
    else
      let s := (s.proceed a IS_MASTER).startRxMtDdTimer
      (s, s.lastSentDdPacket.toList.map .sent)

/-- Packets of the peer are processed as long as the neighbor is in the exchange. -/
def converse (neighborIsMaster : Bool) : OspfNbr → List (Surroundings × DdPacket) → List DdEvent
  | _, [] => []
  | s, (a, dataDescPkt) :: rest =>
    if s.state = .EXCHANGE then
      let r := s.answer a neighborIsMaster dataDescPkt
      .received dataDescPkt :: (r.2 ++ converse neighborIsMaster r.1 rest)
    else []

def exchange (s : OspfNbr) (neighborIsMaster : Bool) (payload : List LsaHeader)
    (answers : List (Surroundings × DdPacket)) : List DdEvent :=
  let r := s.negotiate a neighborIsMaster payload
  r.2 ++ converse neighborIsMaster r.1 answers

end Conversation

section Statement

def packets (es : List DdEvent) : List DdPacket :=
  es.filterMap fun e => match e with
    | .sent ddPacket => some ddPacket
    | _ => none

def headers (es : List DdEvent) : List LsaHeader := (packets es).flatMap DdPacket.lsaHeaderList

def IP_HEADER_LENGTH : ℤ := 20

def headersPerPacket (mtu : ℤ) : ℕ :=
  ((mtu - LSA_HEADER_LENGTH - DD_HEADER_LENGTH) / LSA_HEADER_LENGTH).toNat

def Fits (mtu : ℤ) (ddPacket : DdPacket) : Prop :=
  IP_HEADER_LENGTH + DD_HEADER_LENGTH + LSA_HEADER_LENGTH * ddPacket.lsaHeaderList.length ≤ mtu

/-- The packets list the headers, each once and in order, and tell whether more are to come. -/
structure Lists (mtu : ℤ) (lsas : List LsaHeader) (es : List DdEvent) : Prop where
  listed : headers es = lsas
  fits : ∀ ddPacket ∈ packets es, Fits mtu ddPacket
  more : ∀ before ddPacket after, es = before ++ .sent ddPacket :: after →
    ddPacket.isMore = if headers after = [] then MORE_NOTSET else MORE_SET

/-- The exchange counts as done once, when the last header has been sent. The master has had an
answer to its last packet then. -/
def IsDoneOnce (neighborIsMaster : Bool) (es : List DdEvent) : Prop :=
  ∃ before after, es = before ++ .exchangeDone :: after ∧ .exchangeDone ∉ before ∧
    .exchangeDone ∉ after ∧ headers after = [] ∧ (neighborIsMaster = false → packets after = [] ∧
      ∀ earlier ddPacket later, before = earlier ++ .sent ddPacket :: later →
        ∃ dataDescPkt, .received dataDescPkt ∈ later)

/-- The answers of a correct peer: first those that announce more, then those that do not, as many as
there may be need of. None has a header that the neighbor has to refuse. -/
structure AnswersCorrectly (mtu : ℤ) (n : ℕ) (mores lasts : List (Surroundings × DdPacket)) :
    Prop where
  mtu : ∀ x ∈ mores ++ lasts, x.1.mtu = mtu
  acceptable : ∀ x ∈ mores ++ lasts, ∀ h ∈ x.2.lsaHeaderList, ¬ IsMismatch x.1 h
  more : ∀ x ∈ mores, x.2.isMore = MORE_SET
  last : ∀ x ∈ lasts, x.2.isMore = MORE_NOTSET
  enough : n < lasts.length

end Statement

section Filling

theorem addLsaHeaders_eq (maxSize currentLength : ℤ) (lsas : List LsaHeader) :
    addLsaHeaders maxSize currentLength lsas =
      (lsas.take ((maxSize - currentLength) / LSA_HEADER_LENGTH).toNat,
        lsas.drop ((maxSize - currentLength) / LSA_HEADER_LENGTH).toNat) := by
  induction lsas generalizing currentLength with
  | nil => simp [addLsaHeaders]
  | cons h lsas ih =>
    unfold addLsaHeaders
    split_ifs with hfull
    · have hzero : ((maxSize - currentLength) / (LSA_HEADER_LENGTH : ℤ)).toNat = 0 := by
        unfold LSA_HEADER_LENGTH at *
        omega
      rw [hzero]
      rfl
    · have hsucc : ((maxSize - currentLength) / (LSA_HEADER_LENGTH : ℤ)).toNat =
          ((maxSize - (currentLength + LSA_HEADER_LENGTH)) / (LSA_HEADER_LENGTH : ℤ)).toNat + 1 := by
        unfold LSA_HEADER_LENGTH at *
        omega
      rw [hsucc, ih]
      rfl

def filled (a : Surroundings) (isMaster : ℤ) (ddSeqNum : BitVec 64) (lsas : List LsaHeader) :
    DdPacket :=
  { emptyDdPacket a isMaster ddSeqNum with
    lsaHeaderList := lsas.take (headersPerPacket a.mtu)
    isMore := if lsas.drop (headersPerPacket a.mtu) = [] then MORE_NOTSET else MORE_SET }

theorem proceed_fills (a : Surroundings) (s : OspfNbr) (isMaster : ℤ) :
    s.proceed a isMaster = { s with
      ddSummaryList := s.ddSummaryList.drop (headersPerPacket a.mtu)
      lastSentDdPacket := some (filled a isMaster s.ddSeqNum s.ddSummaryList) } := by
  unfold OspfNbr.proceed OspfNbr.getIsMoreBit
  cases hlsas : s.ddSummaryList with
  | nil =>
    unfold filled
    simp only [List.isEmpty_nil, ↓reduceIte, List.drop_nil, List.take_nil]
    rfl
  | cons h lsas =>
    have hfill := addLsaHeaders_eq (a.mtu - LSA_HEADER_LENGTH) DD_HEADER_LENGTH (h :: lsas)
    change _ = ((h :: lsas).take (headersPerPacket a.mtu), (h :: lsas).drop (headersPerPacket a.mtu))
      at hfill
    rw [if_neg (by simp)]
    simp only [hfill]
    unfold filled
    cases (h :: lsas).drop (headersPerPacket a.mtu) with
    | nil => rfl
    | cons g rest => rfl

theorem fits_filled {a : Surroundings} (hmtu : 0 < headersPerPacket a.mtu) (isMaster : ℤ)
    (ddSeqNum : BitVec 64) (lsas : List LsaHeader) : Fits a.mtu (filled a isMaster ddSeqNum lsas) := by
  have hlength : (filled a isMaster ddSeqNum lsas).lsaHeaderList.length ≤ headersPerPacket a.mtu :=
    List.length_take_le _ _
  unfold Fits
  unfold headersPerPacket at hlength hmtu
  unfold IP_HEADER_LENGTH DD_HEADER_LENGTH OSPF_HEADER_LENGTH LSA_HEADER_LENGTH at *
  omega

end Filling

section Answers

variable {a : Surroundings} {s : OspfNbr} {dataDescPkt : DdPacket}

theorem exchangeDone_leaves (a : Surroundings) (s : OspfNbr) :
    (s.exchangeDone a).state ≠ .EXCHANGE := by
  obtain ⟨lsr, heq⟩ := exchangeDone_eq a s
  rw [heq]
  split_ifs with hstate
  · intro h
    cases h
  · intro h
    cases h
  · exact hstate

theorem answer_of_slave (hstate : s.state = .EXCHANGE)
    (hall : ∀ h ∈ dataDescPkt.lsaHeaderList, ¬ IsMismatch a h) :
    ∃ t, s.answer a true dataDescPkt = (t,
      if s.ddSummaryList.drop (headersPerPacket a.mtu) = [] ∧ dataDescPkt.isMore = MORE_NOTSET then
        [.exchangeDone, .sent (filled a NOT_MASTER dataDescPkt.sequenceNo s.ddSummaryList)]
      else [.sent (filled a NOT_MASTER dataDescPkt.sequenceNo s.ddSummaryList)]) ∧
      if s.ddSummaryList.drop (headersPerPacket a.mtu) = [] ∧ dataDescPkt.isMore = MORE_NOTSET then
        t.state ≠ .EXCHANGE
      else t.state = .EXCHANGE ∧
        t.ddSummaryList = s.ddSummaryList.drop (headersPerPacket a.mtu) := by
  obtain ⟨l, -, heq⟩ := processLsas_all a { s with ddSeqNum := dataDescPkt.sequenceNo } hall
  unfold OspfNbr.answer
  rw [if_pos rfl, heq]
  dsimp only
  rw [proceed_fills]
  dsimp only
  have hmore : some (filled a NOT_MASTER dataDescPkt.sequenceNo s.ddSummaryList).isMore =
      some MORE_NOTSET ↔ s.ddSummaryList.drop (headersPerPacket a.mtu) = [] := by
    unfold filled
    split_ifs with hnil
    · exact iff_of_true rfl hnil
    · have hne : MORE_SET ≠ MORE_NOTSET := by decide
      exact iff_of_false (fun h => hne (Option.some.inj h)) hnil
  simp only [Option.map_some, hmore]
  split_ifs
  · exact ⟨_, rfl, exchangeDone_leaves a _⟩
  · exact ⟨_, rfl, hstate, rfl⟩

theorem answer_of_master (hstate : s.state = .EXCHANGE)
    (hall : ∀ h ∈ dataDescPkt.lsaHeaderList, ¬ IsMismatch a h) :
    ∃ t, s.answer a false dataDescPkt = (t,
      if s.ddSummaryList = [] ∧ dataDescPkt.isMore = MORE_NOTSET then [.exchangeDone]
      else [.sent (filled a IS_MASTER (s.ddSeqNum + 1) s.ddSummaryList)]) ∧
      if s.ddSummaryList = [] ∧ dataDescPkt.isMore = MORE_NOTSET then t.state ≠ .EXCHANGE
      else t.state = .EXCHANGE ∧
        t.ddSummaryList = s.ddSummaryList.drop (headersPerPacket a.mtu) := by
  obtain ⟨l, -, heq⟩ :=
    processLsas_all a { s.stopRxMtDdTimer with ddSeqNum := s.ddSeqNum + 1 } hall
  unfold OspfNbr.answer
  rw [if_neg Bool.false_ne_true, heq]
  dsimp only
  rw [proceed_fills]
  simp only [List.isEmpty_iff]
  split_ifs with hdone hdone' hdone'
  · exact ⟨_, rfl, exchangeDone_leaves a _⟩
  · exact absurd hdone hdone'
  · exact absurd hdone' hdone
  · exact ⟨_, rfl, hstate, rfl⟩

theorem negotiate_eq (hstate : s.state = .EXSTART) (neighborIsMaster : Bool)
    {payload : List LsaHeader} (hall : ∀ h ∈ payload, ¬ IsMismatch a h) :
    ∃ t isMaster, s.negotiate a neighborIsMaster payload =
        (t, [.sent (filled a isMaster s.ddSeqNum (getLsaHeaders a))]) ∧
      t.state = .EXCHANGE ∧ t.ddSummaryList = (getLsaHeaders a).drop (headersPerPacket a.mtu) := by
  obtain ⟨l, -, heq⟩ := processLsas_all a
    { s.stopRxMtDdTimer with state := .EXCHANGE, ddSummaryList := getLsaHeaders a } hall
  have hstop : s.stopRxMtDdTimer.state = .EXSTART := hstate
  unfold OspfNbr.negotiate OspfNbr.negotiationDone
  dsimp only
  rw [if_pos hstop, if_pos hstate, heq]
  cases neighborIsMaster with
  | true =>
    rw [if_pos rfl, proceed_fills]
    exact ⟨_, NOT_MASTER, rfl, rfl, rfl⟩
  | false =>
    rw [if_neg Bool.false_ne_true, proceed_fills]
    exact ⟨_, IS_MASTER, rfl, rfl, rfl⟩

theorem converse_of_left (neighborIsMaster : Bool) (h : s.state ≠ .EXCHANGE)
    (answers : List (Surroundings × DdPacket)) : converse neighborIsMaster s answers = [] := by
  cases answers with
  | nil => rfl
  | cons x answers =>
    unfold converse
    exact if_neg h

end Answers

section Listing

variable {mtu : ℤ} {lsas : List LsaHeader} {es : List DdEvent}

theorem lists_nil : Lists mtu [] [] where
  listed := rfl
  fits := fun ddPacket h => absurd h List.not_mem_nil
  more := by
    intro before ddPacket after h
    cases before <;> cases h

theorem Lists.skip {e : DdEvent} (he : ∀ ddPacket, e ≠ .sent ddPacket) (h : Lists mtu lsas es) :
    Lists mtu lsas (e :: es) := by
  have hpackets : packets (e :: es) = packets es := by
    cases e with
    | sent ddPacket => exact absurd rfl (he ddPacket)
    | received | exchangeDone => rfl
  refine ⟨?_, ?_, ?_⟩
  · unfold headers
    rw [hpackets]
    exact h.listed
  · rw [hpackets]
    exact h.fits
  · intro before ddPacket after hsplit
    cases before with
    | nil =>
      cases hsplit
      exact absurd rfl (he ddPacket)
    | cons b before =>
      obtain ⟨_, hrest⟩ := List.cons.inj hsplit
      exact h.more before ddPacket after hrest

theorem Lists.fill {a : Surroundings} (hmtu : 0 < headersPerPacket a.mtu) (isMaster : ℤ)
    (ddSeqNum : BitVec 64) (h : Lists a.mtu (lsas.drop (headersPerPacket a.mtu)) es) :
    Lists a.mtu lsas (.sent (filled a isMaster ddSeqNum lsas) :: es) where
  listed := by
    have hheaders : headers (.sent (filled a isMaster ddSeqNum lsas) :: es) =
        lsas.take (headersPerPacket a.mtu) ++ headers es := rfl
    rw [hheaders, h.listed, List.take_append_drop]
  fits := by
    intro ddPacket hmem
    rcases List.mem_cons.mp hmem with rfl | hmem
    · exact fits_filled hmtu isMaster ddSeqNum lsas
    · exact h.fits ddPacket hmem
  more := by
    intro before ddPacket after hsplit
    cases before with
    | nil =>
      obtain ⟨hpacket, rfl⟩ := List.cons.inj hsplit
      rw [← DdEvent.sent.inj hpacket, h.listed]
      rfl
    | cons b before =>
      obtain ⟨_, hrest⟩ := List.cons.inj hsplit
      exact h.more before ddPacket after hrest

theorem lists_converse (neighborIsMaster : Bool) (hmtu : 0 < headersPerPacket mtu)
    {answers : List (Surroundings × DdPacket)} (hanswers : ∀ x ∈ answers, x.1.mtu = mtu)
    (hall : ∀ x ∈ answers, ∀ h ∈ x.2.lsaHeaderList, ¬ IsMismatch x.1 h) {s : OspfNbr}
    (hstate : s.state = .EXCHANGE)
    (henough : s.ddSummaryList.length < (answers.filter (·.2.isMore = MORE_NOTSET)).length) :
    Lists mtu s.ddSummaryList (converse neighborIsMaster s answers) := by
  induction answers generalizing s with
  | nil => exact absurd henough (Nat.not_lt_zero _)
  | cons x answers ih =>
    obtain ⟨a, p⟩ := x
    obtain rfl : a.mtu = mtu := hanswers _ List.mem_cons_self
    have hrest := fun t : OspfNbr => ih (s := t) (fun y hy => hanswers y (List.mem_cons_of_mem _ hy))
      (fun y hy => hall y (List.mem_cons_of_mem _ hy))
    have hp := hall _ List.mem_cons_self
    -- an answer that announces no more takes one header at least, if there is one
    have hless : ∀ t : OspfNbr, t.state = .EXCHANGE →
        t.ddSummaryList = s.ddSummaryList.drop (headersPerPacket a.mtu) →
        (p.isMore = MORE_NOTSET → s.ddSummaryList ≠ []) →
        Lists a.mtu (s.ddSummaryList.drop (headersPerPacket a.mtu))
          (converse neighborIsMaster t answers) := by
      intro t ht htl hne
      rw [← htl]
      refine hrest t ht ?_
      rw [htl, List.length_drop]
      rw [List.filter_cons] at henough
      split_ifs at henough with hmore
      · have hpos := List.length_pos_of_ne_nil (hne (of_decide_eq_true hmore))
        rw [List.length_cons] at henough
        omega
      · omega
    unfold converse
    rw [if_pos hstate]
    dsimp only
    refine Lists.skip (fun _ h => DdEvent.noConfusion h) ?_
    cases neighborIsMaster with
    | true =>
      obtain ⟨t, heq, ht⟩ := answer_of_slave hstate hp
      rw [heq]
      split_ifs at ht ⊢ with hdone
      · rw [converse_of_left true ht]
        refine Lists.skip (fun _ h => DdEvent.noConfusion h) (Lists.fill hmtu _ _ ?_)
        rw [hdone.1]
        exact lists_nil
      · refine Lists.fill hmtu _ _ (hless t ht.1 ht.2 fun hmore hnil => hdone ⟨?_, hmore⟩)
        rw [hnil]
        exact List.drop_nil
    | false =>
      obtain ⟨t, heq, ht⟩ := answer_of_master hstate hp
      rw [heq]
      split_ifs at ht ⊢ with hdone
      · rw [converse_of_left false ht, hdone.1]
        exact Lists.skip (fun _ h => DdEvent.noConfusion h) lists_nil
      · exact Lists.fill hmtu _ _ (hless t ht.1 ht.2 fun hmore hnil => hdone ⟨hnil, hmore⟩)

end Listing

section Completion

variable {mtu : ℤ}

theorem received_after_sent {dataDescPkt : DdPacket} {before : List DdEvent}
    (h : ∀ earlier ddPacket later, before = earlier ++ .sent ddPacket :: later →
      ∃ dataDescPkt, .received dataDescPkt ∈ later) {first ddPacket : DdPacket}
    {earlier later : List DdEvent}
    (hsplit : .sent first :: .received dataDescPkt :: before = earlier ++ .sent ddPacket :: later) :
    ∃ dataDescPkt, .received dataDescPkt ∈ later := by
  cases earlier with
  | nil =>
    obtain ⟨_, rfl⟩ := List.cons.inj hsplit
    exact ⟨dataDescPkt, List.mem_cons_self⟩
  | cons e earlier =>
    obtain ⟨_, hsplit'⟩ := List.cons.inj hsplit
    cases earlier with
    | nil => cases hsplit'
    | cons e' earlier =>
      obtain ⟨_, hsplit''⟩ := List.cons.inj hsplit'
      exact h earlier ddPacket later hsplit''

theorem converse_of_master (hmtu : 0 < headersPerPacket mtu)
    {answers : List (Surroundings × DdPacket)} (hanswers : ∀ x ∈ answers, x.1.mtu = mtu)
    (hall : ∀ x ∈ answers, ∀ h ∈ x.2.lsaHeaderList, ¬ IsMismatch x.1 h) {s : OspfNbr}
    (hstate : s.state = .EXCHANGE)
    (henough : s.ddSummaryList.length < (answers.filter (·.2.isMore = MORE_NOTSET)).length) :
    ∃ dataDescPkt before, converse false s answers =
        .received dataDescPkt :: before ++ [.exchangeDone] ∧ .exchangeDone ∉ before ∧
      ∀ earlier ddPacket later, before = earlier ++ .sent ddPacket :: later →
        ∃ dataDescPkt, .received dataDescPkt ∈ later := by
  induction answers generalizing s with
  | nil => exact absurd henough (Nat.not_lt_zero _)
  | cons x answers ih =>
    obtain ⟨a, p⟩ := x
    obtain rfl : a.mtu = mtu := hanswers _ List.mem_cons_self
    have hp : ∀ h ∈ p.lsaHeaderList, ¬ IsMismatch a h := hall _ List.mem_cons_self
    obtain ⟨t, heq, ht⟩ := answer_of_master hstate hp
    unfold converse
    rw [if_pos hstate, heq]
    dsimp only
    split_ifs at ht ⊢ with hdone
    · rw [converse_of_left false ht]
      refine ⟨p, [], rfl, List.not_mem_nil, fun earlier ddPacket later hsplit => ?_⟩
      cases earlier <;> cases hsplit
    · have hless : t.ddSummaryList.length <
          (answers.filter (·.2.isMore = MORE_NOTSET)).length := by
        rw [ht.2, List.length_drop]
        rw [List.filter_cons] at henough
        split_ifs at henough with hmore
        · have hne : s.ddSummaryList ≠ [] := fun hnil => hdone ⟨hnil, of_decide_eq_true hmore⟩
          have hpos := List.length_pos_of_ne_nil hne
          rw [List.length_cons] at henough
          omega
        · omega
      obtain ⟨q, before, hrest, hnot, hanswered⟩ :=
        ih (fun y hy => hanswers y (List.mem_cons_of_mem _ hy))
          (fun y hy => hall y (List.mem_cons_of_mem _ hy)) ht.1 hless
      refine ⟨p, .sent (filled a IS_MASTER (s.ddSeqNum + 1) s.ddSummaryList) :: .received q :: before,
        by rw [hrest]; rfl, ?_, ?_⟩
      · intro hmem
        rcases List.mem_cons.mp hmem with h | hmem
        · cases h
        · rcases List.mem_cons.mp hmem with h | hmem
          · cases h
          · exact hnot hmem
      · exact fun earlier ddPacket later hsplit => received_after_sent hanswered hsplit

/-- The slave raises the event once, and sends a packet then. The packet is empty if there is nothing
left when the peer has no more. -/
def IsDoneBySlave (b : Prop) (es : List DdEvent) : Prop :=
  ∃ before after, es = before ++ .exchangeDone :: after ∧ .exchangeDone ∉ before ∧
    .exchangeDone ∉ after ∧ (headers after = [] ↔ b)

theorem IsDoneBySlave.cons {b b' : Prop} (hb : b ↔ b') {es : List DdEvent}
    (h : IsDoneBySlave b es) (dataDescPkt ddPacket : DdPacket) :
    IsDoneBySlave b' (.received dataDescPkt :: .sent ddPacket :: es) := by
  obtain ⟨before, after, rfl, hbefore, hafter, hiff⟩ := h
  refine ⟨.received dataDescPkt :: .sent ddPacket :: before, after, rfl, ?_, hafter, hiff.trans hb⟩
  intro hmem
  rcases List.mem_cons.mp hmem with h | hmem
  · cases h
  · rcases List.mem_cons.mp hmem with h | hmem
    · cases h
    · exact hbefore hmem

theorem isDoneBySlave_last (hmtu : 0 < headersPerPacket mtu)
    {lasts : List (Surroundings × DdPacket)} (hlasts : ∀ x ∈ lasts, x.1.mtu = mtu)
    (hall : ∀ x ∈ lasts, ∀ h ∈ x.2.lsaHeaderList, ¬ IsMismatch x.1 h)
    (hlast : ∀ x ∈ lasts, x.2.isMore = MORE_NOTSET) {s : OspfNbr} (hstate : s.state = .EXCHANGE)
    (henough : s.ddSummaryList.length < lasts.length) :
    IsDoneBySlave (s.ddSummaryList = []) (converse true s lasts) := by
  induction lasts generalizing s with
  | nil => exact absurd henough (Nat.not_lt_zero _)
  | cons x lasts ih =>
    obtain ⟨a, p⟩ := x
    obtain rfl : a.mtu = mtu := hlasts _ List.mem_cons_self
    have hp : ∀ h ∈ p.lsaHeaderList, ¬ IsMismatch a h := hall _ List.mem_cons_self
    obtain ⟨t, heq, ht⟩ := answer_of_slave hstate hp
    have hmore : p.isMore = MORE_NOTSET := hlast _ List.mem_cons_self
    unfold converse
    rw [if_pos hstate, heq]
    dsimp only
    split_ifs at ht ⊢ with hdone
    · rw [converse_of_left true ht]
      have hlisted : (filled a NOT_MASTER p.sequenceNo s.ddSummaryList).lsaHeaderList =
          s.ddSummaryList := by
        have happend := List.take_append_drop (headersPerPacket a.mtu) s.ddSummaryList
        rw [hdone.1, List.append_nil] at happend
        exact happend
      refine ⟨[.received p], [.sent (filled a NOT_MASTER p.sequenceNo s.ddSummaryList)], rfl, ?_, ?_,
        ?_⟩
      · intro h
        cases List.mem_singleton.mp h
      · intro h
        cases List.mem_singleton.mp h
      · unfold headers
        change (filled a NOT_MASTER p.sequenceNo s.ddSummaryList).lsaHeaderList ++ [] = [] ↔ _
        rw [List.append_nil, hlisted]
    · have hne : s.ddSummaryList.drop (headersPerPacket a.mtu) ≠ [] := fun hnil => hdone ⟨hnil, hmore⟩
      have hne' : s.ddSummaryList ≠ [] := by
        intro hnil
        rw [hnil, List.drop_nil] at hne
        exact hne rfl
      have hpos := List.length_pos_of_ne_nil hne'
      refine (ih (fun y hy => hlasts y (List.mem_cons_of_mem _ hy))
        (fun y hy => hall y (List.mem_cons_of_mem _ hy))
        (fun y hy => hlast y (List.mem_cons_of_mem _ hy)) ht.1 ?_).cons ?_ p _
      · rw [ht.2, List.length_drop]
        rw [List.length_cons] at henough
        omega
      · rw [ht.2]
        exact iff_of_false hne hne'

theorem isDoneBySlave_converse {n : ℕ} (hmtu : 0 < headersPerPacket mtu)
    {mores lasts : List (Surroundings × DdPacket)} (hpeer : AnswersCorrectly mtu n mores lasts)
    {s : OspfNbr} (hstate : s.state = .EXCHANGE) (hn : s.ddSummaryList.length ≤ n) :
    IsDoneBySlave (s.ddSummaryList.length ≤ headersPerPacket mtu * mores.length)
      (converse true s (mores ++ lasts)) := by
  induction mores generalizing s with
  | nil =>
    have hdone := isDoneBySlave_last hmtu hpeer.mtu hpeer.acceptable hpeer.last hstate
      (lt_of_le_of_lt hn hpeer.enough)
    have hiff : s.ddSummaryList.length ≤ headersPerPacket mtu * 0 ↔ s.ddSummaryList = [] := by
      rw [Nat.mul_zero, Nat.le_zero, List.length_eq_zero_iff]
    obtain ⟨before, after, heq, hbefore, hafter, hheaders⟩ := hdone
    exact ⟨before, after, heq, hbefore, hafter, hheaders.trans hiff.symm⟩
  | cons x mores ih =>
    obtain ⟨a, p⟩ := x
    obtain rfl : a.mtu = mtu := hpeer.mtu _ List.mem_cons_self
    have hp : ∀ h ∈ p.lsaHeaderList, ¬ IsMismatch a h := hpeer.acceptable _ List.mem_cons_self
    obtain ⟨t, heq, ht⟩ := answer_of_slave hstate hp
    have hmore : p.isMore ≠ MORE_NOTSET := by
      rw [hpeer.more _ List.mem_cons_self]
      decide
    have hrest : AnswersCorrectly a.mtu n mores lasts :=
      ⟨fun y hy => hpeer.mtu y (List.mem_cons_of_mem _ hy),
        fun y hy => hpeer.acceptable y (List.mem_cons_of_mem _ hy),
        fun y hy => hpeer.more y (List.mem_cons_of_mem _ hy), hpeer.last, hpeer.enough⟩
    rw [List.cons_append]
    unfold converse
    rw [if_pos hstate, heq]
    dsimp only
    rw [if_neg fun h => hmore h.2] at ht ⊢
    refine (ih hrest ht.1 ?_).cons ?_ p _
    · rw [ht.2, List.length_drop]
      omega
    · rw [ht.2, List.length_drop, List.length_cons, Nat.mul_succ]
      omega

end Completion

section Result

theorem headersPerPacket_pos {mtu : ℤ}
    (hmtu : IP_HEADER_LENGTH + DD_HEADER_LENGTH + LSA_HEADER_LENGTH ≤ mtu) :
    0 < headersPerPacket mtu := by
  unfold headersPerPacket
  unfold IP_HEADER_LENGTH DD_HEADER_LENGTH OSPF_HEADER_LENGTH LSA_HEADER_LENGTH at *
  omega

theorem after_eq_of_split {before after before' after' : List DdEvent}
    (h : before ++ .exchangeDone :: after = before' ++ .exchangeDone :: after')
    (hbefore : .exchangeDone ∉ before) (hafter : .exchangeDone ∉ after) : after = after' :=
  ((List.append_cons_inj_of_notMem hbefore hafter).mp h).2.2

theorem filter_answers {mtu : ℤ} {n : ℕ} {mores lasts : List (Surroundings × DdPacket)}
    (hpeer : AnswersCorrectly mtu n mores lasts) :
    n < ((mores ++ lasts).filter (·.2.isMore = MORE_NOTSET)).length := by
  have hlasts : lasts.filter (·.2.isMore = MORE_NOTSET) = lasts :=
    List.filter_eq_self.mpr fun x hx => decide_eq_true (hpeer.last x hx)
  rw [List.filter_append, hlasts, List.length_append]
  exact lt_of_lt_of_le hpeer.enough (Nat.le_add_left _ _)

section

variable {a : Surroundings} {s : OspfNbr} {payload : List LsaHeader}
  {mores lasts : List (Surroundings × DdPacket)}

theorem exchange_eq (hstate : s.state = .EXSTART) (neighborIsMaster : Bool)
    (hpayload : ∀ h ∈ payload, ¬ IsMismatch a h) (answers : List (Surroundings × DdPacket)) :
    ∃ t isMaster, exchange a s neighborIsMaster payload answers =
        .sent (filled a isMaster s.ddSeqNum (getLsaHeaders a)) :: converse neighborIsMaster t answers ∧
      t.state = .EXCHANGE ∧ t.ddSummaryList = (getLsaHeaders a).drop (headersPerPacket a.mtu) := by
  obtain ⟨t, isMaster, heq, hrest⟩ := negotiate_eq hstate neighborIsMaster hpayload
  refine ⟨t, isMaster, ?_, hrest⟩
  unfold exchange
  rw [heq]
  rfl

theorem length_left {t : OspfNbr}
    (h : t.ddSummaryList = (getLsaHeaders a).drop (headersPerPacket a.mtu)) :
    t.ddSummaryList.length ≤ (getLsaHeaders a).length := by
  rw [h, List.length_drop]
  exact Nat.sub_le _ _

variable (hpos : 0 < headersPerPacket a.mtu) (hstate : s.state = .EXSTART)
  (hpayload : ∀ h ∈ payload, ¬ IsMismatch a h)
  (hpeer : AnswersCorrectly a.mtu (getLsaHeaders a).length mores lasts)
include hpos hstate hpayload hpeer

theorem lists_exchange (neighborIsMaster : Bool) : Lists a.mtu (getLsaHeaders a)
    (exchange a s neighborIsMaster payload (mores ++ lasts)) := by
  obtain ⟨t, isMaster, heq, hexchange, hleft⟩ :=
    exchange_eq hstate neighborIsMaster hpayload (mores ++ lasts)
  have hrest := lists_converse neighborIsMaster hpos hpeer.mtu hpeer.acceptable hexchange
    (lt_of_le_of_lt (length_left hleft) (filter_answers hpeer))
  rw [hleft] at hrest
  rw [heq]
  exact Lists.fill hpos isMaster s.ddSeqNum hrest

theorem isDoneOnce_master : IsDoneOnce false (exchange a s false payload (mores ++ lasts)) := by
  obtain ⟨t, isMaster, heq, hexchange, hleft⟩ :=
    exchange_eq hstate false hpayload (mores ++ lasts)
  obtain ⟨q, before, hrest, hnot, hanswered⟩ := converse_of_master hpos hpeer.mtu hpeer.acceptable
    hexchange (lt_of_le_of_lt (length_left hleft) (filter_answers hpeer))
  rw [heq, hrest]
  refine ⟨.sent (filled a isMaster s.ddSeqNum (getLsaHeaders a)) :: .received q :: before, [], rfl,
    ?_, List.not_mem_nil, rfl, fun _ => ⟨rfl, fun earlier ddPacket later hsplit => ?_⟩⟩
  · intro hmem
    rcases List.mem_cons.mp hmem with h | hmem
    · cases h
    · rcases List.mem_cons.mp hmem with h | hmem
      · cases h
      · exact hnot hmem
  · exact received_after_sent hanswered hsplit

theorem isDoneOnce_slave_iff : IsDoneOnce true (exchange a s true payload (mores ++ lasts)) ↔
    (getLsaHeaders a).length ≤ headersPerPacket a.mtu * (mores.length + 1) := by
  obtain ⟨t, isMaster, heq, hexchange, hleft⟩ := exchange_eq hstate true hpayload (mores ++ lasts)
  obtain ⟨before, after, hrest, hbefore, hafter, hheaders⟩ :=
    isDoneBySlave_converse hpos hpeer hexchange (length_left hleft)
  have hcount : t.ddSummaryList.length ≤ headersPerPacket a.mtu * mores.length ↔
      (getLsaHeaders a).length ≤ headersPerPacket a.mtu * (mores.length + 1) := by
    rw [hleft, List.length_drop, Nat.mul_succ]
    omega
  have hfirst : .exchangeDone ∉
      .sent (filled a isMaster s.ddSeqNum (getLsaHeaders a)) :: before := by
    intro hmem
    rcases List.mem_cons.mp hmem with h | hmem
    · cases h
    · exact hbefore hmem
  rw [heq, hrest]
  constructor
  · rintro ⟨before', after', hsplit, _, _, hafter', _⟩
    have hsame : after = after' := after_eq_of_split hsplit hfirst hafter
    rw [← hsame] at hafter'
    exact hcount.mp (hheaders.mp hafter')
  · intro h
    exact ⟨.sent _ :: before, after, rfl, hfirst, hafter, hheaders.mpr (hcount.mpr h),
      fun h => absurd h.symm Bool.false_ne_true⟩

end

end Result

section Example

def lastDdPacket : DdPacket := ⟨2, INITIALIZE_NOTSET, MORE_NOTSET, IS_MASTER, 1500, 7, []⟩

def waitingNbr : OspfNbr := { OspfNbr.initial 6 with state := .EXSTART }

theorem answersCorrectly_quiet : AnswersCorrectly quietSurroundings.mtu
    (getLsaHeaders quietSurroundings).length [] [(quietSurroundings, lastDdPacket)] where
  mtu := by
    intro x hx
    rw [List.mem_singleton.mp hx]
  acceptable := by
    intro x hx h hh
    rw [List.mem_singleton.mp hx] at hh
    exact absurd hh List.not_mem_nil
  more := fun x hx => absurd hx List.not_mem_nil
  last := by
    intro x hx
    rw [List.mem_singleton.mp hx]
    rfl
  enough := by decide

def routerLsa (linkStateId : String) (advertisingRouter : Ip4Address) : LsaWrapper :=
  ⟨⟨1, 2, 1, linkStateId, 0, 0, advertisingRouter, 1, 0, 36⟩, 1, 0, 0, false, -1⟩

/-- Two advertisements, and an interface whose packets have room for one header. -/
def narrowSurroundings : Surroundings :=
  { quietSurroundings with
    mtu := 72
    database := ((OspfLsdb.initial ⟨0, 0, Nat.zero_le _⟩).putLsa
      (routerLsa "10.0.0.3" ⟨10, 0, 0, 3⟩)).putLsa (routerLsa "10.0.0.4" ⟨10, 0, 0, 4⟩) }

theorem answersCorrectly_narrow : AnswersCorrectly narrowSurroundings.mtu
    (getLsaHeaders narrowSurroundings).length []
    (List.replicate 3 (narrowSurroundings, lastDdPacket)) where
  mtu := by
    intro x hx
    rw [List.eq_of_mem_replicate hx]
  acceptable := by
    intro x hx h hh
    rw [List.eq_of_mem_replicate hx] at hh
    exact absurd hh List.not_mem_nil
  more := fun x hx => absurd hx List.not_mem_nil
  last := by
    intro x hx
    rw [List.eq_of_mem_replicate hx]
    rfl
  enough := by decide

end Example

end NeighborMachine
