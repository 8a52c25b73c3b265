import Onos.LinkStateDatabase

/-! What names an advertisement: the key it is stored under, the header that is sent of it, the
request for it that the header leads to, and the lookup of the request at the router that stores
it. -/
namespace LsaIdentity

open KeyedMap LinkStateDatabase LinkStateHeaders Texts WireBytes

section Names

theorem notMem_ofInt {n : ℤ} (hn : 0 ≤ n) {c : Char} (hc : c.isDigit = false) :
    c ∉ (ofInt n).toList := by
  intro h
  have := digits_ofInt hn c h
  rw [hc] at this
  cases this

theorem toList_dotted (a b c d : ℤ) :
    (dotted a b c d).toList = (ofInt a).toList ++ '.' :: ((ofInt b).toList ++
      '.' :: ((ofInt c).toList ++ '.' :: (ofInt d).toList)) := by
  unfold dotted
  simp

theorem toList_keyOf (ty : ℤ) (link router : String) : (keyOf ty link router).toList =
      (ofInt ty).toList ++ '-' :: (link.toList ++ '-' :: router.toList) := by
  unfold keyOf
  simp

theorem notMem_text (a : Ip4Address) {c : Char} (hc : c.isDigit = false) (hdot : c ≠ '.') :
    c ∉ a.text.toList := by
  have hn (n : ℕ) : c ∉ (ofInt n).toList := notMem_ofInt (Int.natCast_nonneg n) hc
  unfold Ip4Address.text
  rw [toList_dotted]
  simp [hn, hdot]

theorem text_ne_nil (a : Ip4Address) : a.text.toList ≠ [] := by
  unfold Ip4Address.text
  rw [toList_dotted]
  simp

theorem dotted_injective {a b c d a' b' c' d' : ℕ}
    (h : dotted a b c d = dotted a' b' c' d') : a = a' ∧ b = b' ∧ c = c' ∧ d = d' := by
  have hn (n : ℕ) : '.' ∉ (ofInt n).toList := notMem_ofInt (Int.natCast_nonneg n) (by decide)
  have hof {m n : ℕ} (e : (ofInt m).toList = (ofInt n).toList) : m = n :=
    Int.ofNat_inj.mp (ofInt_injective (String.toList_inj.mp e))
  have hchars := congrArg String.toList h
  rw [toList_dotted, toList_dotted] at hchars
  obtain ⟨ha, hchars⟩ := append_inj_of_notMem (hn a) (hn a') hchars
  obtain ⟨hb, hchars⟩ := append_inj_of_notMem (hn b) (hn b') hchars
  obtain ⟨hc, hd⟩ := append_inj_of_notMem (hn c) (hn c') hchars
  exact ⟨hof ha, hof hb, hof hc, hof hd⟩

theorem text_injective {a b : Ip4Address} (h : a.text = b.text) : a = b := by
  obtain ⟨h1, h2, h3, h4⟩ := dotted_injective h
  cases a
  cases b
  simp only [Ip4Address.mk.injEq]
  exact ⟨BitVec.eq_of_toNat_eq h1, BitVec.eq_of_toNat_eq h2, BitVec.eq_of_toNat_eq h3,
    BitVec.eq_of_toNat_eq h4⟩

theorem keyOf_inj {ty ty' : ℤ} (hty : 0 ≤ ty) (hty' : 0 ≤ ty') (link link' : String)
    (a a' : Ip4Address) :
    keyOf ty link a.text = keyOf ty' link' a'.text ↔ ty = ty' ∧ link = link' ∧ a = a' := by
  constructor
  · intro h
    have hchars := congrArg String.toList h
    rw [toList_keyOf, toList_keyOf] at hchars
    obtain ⟨hfirst, hchars⟩ := append_inj_of_notMem (notMem_ofInt hty (by decide))
      (notMem_ofInt hty' (by decide)) hchars
    obtain ⟨hlink, hrouter⟩ := append_inj_of_notMem_right (notMem_text a (by decide) (by decide))
      (notMem_text a' (by decide) (by decide)) hchars
    exact ⟨ofInt_injective (String.toList_inj.mp hfirst), String.toList_inj.mp hlink,
      text_injective (String.toList_inj.mp hrouter)⟩
  · rintro ⟨rfl, rfl, rfl⟩
    rfl

end Names

section Keys

theorem type_nonneg {h : LsaHeader} (hk : h.getOspfLsaType ≠ .UNDEFINED) : 0 ≤ h.lsType := by
  rw [value_ofValue (v := h.lsType) rfl hk]
  cases OspfLsaType.ofValue h.lsType <;> decide

/-- The text between the type and the router in the key of an advertisement. -/
def linkText (h : LsaHeader) : String :=
  if h.getOspfLsaType.isOpaqueType then ofInt h.opaqueType ++ ofInt h.opaqueId else h.linkStateId

theorem getLsaKey_eq {h : LsaHeader} (hk : h.getOspfLsaType ≠ .UNDEFINED) :
    getLsaKey h = keyOf h.lsType (linkText h) h.advertisingRouter.text := by
  unfold getLsaKey linkText
  cases e : h.getOspfLsaType with
  | UNDEFINED => exact absurd e hk
  | _ => rfl

theorem getLsaKey_undefined {h : LsaHeader} (hk : h.getOspfLsaType = .UNDEFINED) :
    getLsaKey h = "" := by
  unfold getLsaKey
  rw [hk]

theorem getLsaKey_ne_empty {h : LsaHeader} (hk : h.getOspfLsaType ≠ .UNDEFINED) :
    getLsaKey h ≠ "" := by
  rw [getLsaKey_eq hk]
  intro e
  have := congrArg String.toList e
  rw [toList_keyOf] at this
  simp at this

/-- The same advertisement: the same type, advertising router and link state id, which for an
opaque one is its opaque type and id. -/
def SameLsa (h h' : LsaHeader) : Prop :=
  h.lsType = h'.lsType ∧ h.advertisingRouter = h'.advertisingRouter ∧
    if h.getOspfLsaType.isOpaqueType then
      h.opaqueType = h'.opaqueType ∧ h.opaqueId = h'.opaqueId
    else h.linkStateId = h'.linkStateId

/-- Two advertisements that the key takes for one: both are of an unknown type, or they are opaque
and the digits of opaque type and id run together to the same text. -/
def Confused (h h' : LsaHeader) : Prop :=
  (h.getOspfLsaType = .UNDEFINED ∧ h'.getOspfLsaType = .UNDEFINED ∧ ¬ SameLsa h h') ∨
    (h.getOspfLsaType.isOpaqueType = true ∧ h.lsType = h'.lsType ∧
      h.advertisingRouter = h'.advertisingRouter ∧
      ¬ (h.opaqueType = h'.opaqueType ∧ h.opaqueId = h'.opaqueId) ∧
      ofInt h.opaqueType ++ ofInt h.opaqueId = ofInt h'.opaqueType ++ ofInt h'.opaqueId)

theorem key_identifies_iff (h h' : LsaHeader) :
    (getLsaKey h = getLsaKey h' ↔ SameLsa h h') ↔ ¬ Confused h h' := by
  have htype {x y : LsaHeader} (e : x.lsType = y.lsType) : x.getOspfLsaType = y.getOspfLsaType :=
    congrArg OspfLsaType.ofValue e
  by_cases hk : h.getOspfLsaType = .UNDEFINED
  · by_cases hk' : h'.getOspfLsaType = .UNDEFINED
    · simp only [Confused, getLsaKey_undefined hk, getLsaKey_undefined hk', hk, hk', true_and,
        OspfLsaType.isOpaqueType, Bool.false_eq_true, false_and, or_false, not_not, true_iff]
    · have hkeys : getLsaKey h ≠ getLsaKey h' := by
        rw [getLsaKey_undefined hk]
        exact (getLsaKey_ne_empty hk').symm
      have hsame : ¬ SameLsa h h' := fun e => hk' (htype e.1 ▸ hk)
      simp [Confused, hkeys, hsame, hk, hk', OspfLsaType.isOpaqueType]
  · by_cases hk' : h'.getOspfLsaType = .UNDEFINED
    · have hkeys : getLsaKey h ≠ getLsaKey h' := by
        rw [getLsaKey_undefined hk']
        exact getLsaKey_ne_empty hk
      have hty : h.lsType ≠ h'.lsType := fun e => hk ((htype e).trans hk')
      simp [Confused, SameLsa, hkeys, hk, hty]
    · rw [getLsaKey_eq hk, getLsaKey_eq hk', keyOf_inj (type_nonneg hk) (type_nonneg hk')]
      unfold Confused SameLsa
      by_cases hty : h.lsType = h'.lsType
      · have ht := htype hty
        unfold linkText
        rw [← ht]
        cases ho : h.getOspfLsaType.isOpaqueType with
        | true =>
          have htexts : h.opaqueType = h'.opaqueType ∧ h.opaqueId = h'.opaqueId →
              ofInt h.opaqueType ++ ofInt h.opaqueId = ofInt h'.opaqueType ++ ofInt h'.opaqueId := by
            rintro ⟨e, e'⟩
            rw [e, e']
          simp only [hk, false_and, false_or, hty, true_and, ↓reduceIte]
          by_cases hids : h.opaqueType = h'.opaqueType ∧ h.opaqueId = h'.opaqueId
          · simp [hids]
          · simp only [hids, and_false, iff_false, not_false_eq_true, true_and]
            constructor
            · rintro hno ⟨hrouter, htext⟩
              exact hno ⟨htext, hrouter⟩
            · rintro hno ⟨htext, hrouter⟩
              exact hno ⟨hrouter, htext⟩
        | false =>
          simp only [hk, false_and, false_or, hty, true_and, Bool.false_eq_true, ↓reduceIte,
            not_false_eq_true, iff_true]
          exact and_comm
      · simp [hty, hk]

end Keys

end LsaIdentity
