/-
CanonicalSignatures signatures: what `IsCanonicalSignature` admits is the minimal DER
form of two numbers with a hash type behind it, and it reads the signature
nowhere else. What `CKey::Sign` makes is admitted.
-/
import Pinkcoin.Stealth
import Pinkcoin.Interp.Values

namespace Pinkcoin

open CScript (leBytes leNat length_leBytes)

/-! ## Comparing numbers -/

/-- The loop of `CompareBipinkdian` over the longer string: there is no result
yet where the bytes in front are zero. -/
def skipZeros (len : Nat) : Valtype → Option Valtype
  | [] => some []
  | c :: cs => if (c :: cs).length > len then if c ≠ 0 then none else skipZeros len cs else some (c :: cs)

/-- The last loop of `CompareBipinkdian`. -/
def compareBytes : Valtype → Valtype → Int
  | c1 :: cs1, c2 :: cs2 => if c1 > c2 then 1 else if c2 > c1 then -1 else compareBytes cs1 cs2
  | _, _ => 0

/-- `CompareBipinkdian`. -/
def compareBipinkdian (c1 c2 : Valtype) : Int :=
  match skipZeros c2.length c1 with
  | none => 1
  | some c1 =>
    match skipZeros c1.length c2 with
    | none => -1
    | some c2 => compareBytes c1 c2

/-- `vchMaxModOrder`. -/
def vchMaxModOrder : Valtype :=
  [0xFF, 0xFF, 0xFF, 0xFF, 0xFF, 0xFF, 0xFF, 0xFF, 0xFF, 0xFF, 0xFF, 0xFF, 0xFF, 0xFF, 0xFF, 0xFE,
    0xBA, 0xAE, 0xDC, 0xE6, 0xAF, 0x48, 0xA0, 0x3B, 0xBF, 0xD2, 0x5E, 0x8C, 0xD0, 0x36, 0x41, 0x40]

/-- `vchMaxModHalfOrder`. -/
def vchMaxModHalfOrder : Valtype :=
  [0x7F, 0xFF, 0xFF, 0xFF, 0xFF, 0xFF, 0xFF, 0xFF, 0xFF, 0xFF, 0xFF, 0xFF, 0xFF, 0xFF, 0xFF, 0xFF,
    0x5D, 0x57, 0x6E, 0x73, 0x57, 0xA4, 0x50, 0x1D, 0xDF, 0xE9, 0x2F, 0x46, 0x68, 0x1B, 0x20, 0xA0]

namespace DerSignature

/-- `CKey::CheckSignatureElement`. -/
def checkSignatureElement (vch : Valtype) (half : Bool) : Bool :=
  decide (0 < compareBipinkdian vch []) &&
    decide (compareBipinkdian vch (if half then vchMaxModHalfOrder else vchMaxModOrder) ≤ 0)

/-- The tests of `IsCanonicalSignature` of one of the numbers, which starts at
`ofs`. A read outside the signature is `none`. -/
def checkNumber (vchSig : Valtype) (ofs nLen : Nat) : Option Bool := do
  let type ← vchSig[ofs - 2]?
  if type ≠ 0x02 then return false
  else if nLen = 0 then return false
  else
    let b ← vchSig[ofs]?
    if b &&& 0x80 ≠ 0 then return false
    else if nLen > 1 ∧ b = 0 then
      let b' ← vchSig[ofs + 1]?
      return decide (b' &&& 0x80 ≠ 0)
    else return true

/-- Some bytes of the signature, `none` where they are not all inside it. -/
def readSig (vchSig : Valtype) (ofs len : Nat) : Option Valtype :=
  if ofs + len ≤ vchSig.length then some ((vchSig.drop ofs).take len) else none

/-- `IsCanonicalSignature`, with `none` for a read outside the signature. -/
def isCanonicalSignature (vchSig : Valtype) : Option Bool :=
  if vchSig.length < 9 then some false
  else if vchSig.length > 73 then some false
  else do
    let last ← vchSig[vchSig.length - 1]?
    let nHashType := last.toNat &&& 0x7f
    if nHashType < SIGHASH_ALL ∨ nHashType > SIGHASH_SINGLE then return false
    else
      let tag ← vchSig[0]?
      if tag ≠ 0x30 then return false
      else
        let len ← vchSig[1]?
        if len.toNat ≠ vchSig.length - 3 then return false
        else
          let lenR ← vchSig[3]?
          let nLenR := lenR.toNat
          if 5 + nLenR ≥ vchSig.length then return false
          else
            let lenS ← vchSig[5 + nLenR]?
            let nLenS := lenS.toNat
            if nLenR + nLenS + 7 ≠ vchSig.length then return false
            else
              let okR ← checkNumber vchSig 4 nLenR
              if okR = false then return false
              else
                let okS ← checkNumber vchSig (6 + nLenR) nLenS
                if okS = false then return false
                else
                  let S ← readSig vchSig (6 + nLenR) nLenS
                  return checkSignatureElement S true

end DerSignature

/-! ## DER -/

/-- The bytes of a number in DER: as few as leave the first bit clear. -/
def derInt (n : Nat) : Valtype := (leBytes (bnNumBits n / 8 + 1) n).reverse

/-- The DER form of two numbers. -/
def derEncode (r s : Nat) : Valtype :=
  0x30 :: UInt8.ofNat ((derInt r).length + (derInt s).length + 4) ::
    (0x02 :: UInt8.ofNat (derInt r).length :: derInt r ++ 0x02 :: UInt8.ofNat (derInt s).length :: derInt s)

/-- A hash type is all, none or single, and can be for anyone to pay. -/
def hashTypeByte (b : UInt8) : Prop := SIGHASH_ALL ≤ b.toNat &&& 0x7f ∧ b.toNat &&& 0x7f ≤ SIGHASH_SINGLE

instance (b : UInt8) : Decidable (hashTypeByte b) := inferInstanceAs (Decidable (_ ∧ _))

/-- **A canonical signature**: two numbers in DER, the second from one to half
of the order, and a hash type. -/
def DerForm (vchSig : Valtype) : Prop :=
  ∃ r s b, vchSig = derEncode r s ++ [b] ∧ 1 ≤ s ∧ s ≤ maxModHalfOrder ∧ hashTypeByte b ∧
    9 ≤ vchSig.length ∧ vchSig.length ≤ 73

/-! ## The comparison is that of the numbers -/

theorem beNat_lt (vch : Valtype) : beNat vch < 256 ^ vch.length := by
  have h := leNat_lt vch.reverse
  rwa [List.length_reverse] at h

theorem skipZeros_none {len : Nat} {vch : Valtype} (h : skipZeros len vch = none) : 256 ^ len ≤ beNat vch := by
  induction vch with
  | nil => cases h
  | cons c cs ih =>
    rw [skipZeros] at h
    rw [beNat_cons]
    split_ifs at h with hlong hc
    · have hpos : 1 ≤ c.toNat := Nat.pos_of_ne_zero fun h0 => hc (UInt8.toNat_inj.mp h0)
      have hle : len ≤ cs.length := Nat.lt_succ_iff.mp hlong
      calc 256 ^ len ≤ 256 ^ cs.length := Nat.pow_le_pow_right (by decide) hle
        _ ≤ 256 ^ cs.length * c.toNat := Nat.le_mul_of_pos_right _ hpos
        _ ≤ beNat cs + 256 ^ cs.length * c.toNat := Nat.le_add_left _ _
    · exact Nat.le_add_right_of_le (ih h)

theorem skipZeros_some {len : Nat} {vch vch' : Valtype} (h : skipZeros len vch = some vch') :
    beNat vch' = beNat vch ∧ vch'.length = min vch.length len := by
  induction vch with
  | nil =>
    cases h
    exact ⟨rfl, (Nat.zero_min _).symm⟩
  | cons c cs ih =>
    rw [skipZeros] at h
    split_ifs at h with hlong hc
    · obtain ⟨hnat, hlen⟩ := ih h
      rw [Decidable.not_not] at hc
      rw [beNat_cons, hc, hnat, hlen]
      refine ⟨(Nat.add_zero _).symm, ?_⟩
      rw [List.length_cons] at hlong ⊢
      omega
    · cases h
      exact ⟨rfl, by omega⟩

theorem compareBytes_pos {c1 c2 : Valtype} (hlen : c1.length = c2.length) :
    0 < compareBytes c1 c2 ↔ beNat c2 < beNat c1 := by
  induction c1 generalizing c2 with
  | nil =>
    obtain rfl := List.length_eq_zero_iff.mp hlen.symm
    simp [compareBytes]
  | cons b1 cs1 ih =>
    obtain ⟨b2, cs2, rfl⟩ := List.exists_cons_of_length_eq_add_one hlen.symm
    have hlen : cs1.length = cs2.length := Nat.succ.inj hlen
    have h1 := beNat_lt cs1
    have h2 := beNat_lt cs2
    rw [compareBytes, beNat_cons, beNat_cons]
    rw [hlen] at h1 ⊢
    split_ifs with hgt hlt
    · have hgt : b2.toNat + 1 ≤ b1.toNat := hgt
      have hmul := Nat.mul_le_mul_left (256 ^ cs2.length) hgt
      rw [Nat.mul_add] at hmul
      exact iff_of_true (by decide) (by omega)
    · have hlt : b1.toNat + 1 ≤ b2.toNat := hlt
      have hmul := Nat.mul_le_mul_left (256 ^ cs2.length) hlt
      rw [Nat.mul_add] at hmul
      exact iff_of_false (by decide) (by omega)
    · have heq : b1.toNat = b2.toNat := Nat.le_antisymm (Nat.not_lt.mp hgt) (Nat.not_lt.mp hlt)
      rw [ih hlen, heq]
      omega

/-- **The strings are compared as numbers.** -/
theorem compareBipinkdian_pos (c1 c2 : Valtype) : 0 < compareBipinkdian c1 c2 ↔ beNat c2 < beNat c1 := by
  unfold compareBipinkdian
  cases h1 : skipZeros c2.length c1 with
  | none =>
    have hle := skipZeros_none h1
    have hlt := beNat_lt c2
    exact iff_of_true Int.one_pos (by omega)
  | some d1 =>
    obtain ⟨hnat1, hlen1⟩ := skipZeros_some h1
    dsimp only
    cases h2 : skipZeros d1.length c2 with
    | none =>
      have hle := skipZeros_none h2
      have hlt := beNat_lt d1
      exact iff_of_false (show ¬ (0 : Int) < -1 by decide) (by omega)
    | some d2 =>
      obtain ⟨hnat2, hlen2⟩ := skipZeros_some h2
      rw [← hnat1, ← hnat2]
      exact compareBytes_pos (by omega)

theorem beNat_vchMaxModHalfOrder : beNat vchMaxModHalfOrder = maxModHalfOrder := by decide +kernel

/-- The two readings of `CheckSignatureElement` agree. -/
theorem checkSignatureElement_eq (vch : Valtype) :
    DerSignature.checkSignatureElement vch true = checkSignatureElement vch := by
  have hzero : beNat [] = 0 := rfl
  have hhalf : compareBipinkdian vch vchMaxModHalfOrder ≤ 0 ↔ beNat vch ≤ maxModHalfOrder := by
    rw [← Int.not_lt, compareBipinkdian_pos, beNat_vchMaxModHalfOrder, Nat.not_lt]
  rw [DerSignature.checkSignatureElement, checkSignatureElement, if_pos rfl]
  congr 1
  · rw [decide_eq_decide, compareBipinkdian_pos, hzero]
    rfl
  · rw [decide_eq_decide, hhalf]
    rfl

/-! ## The tests read inside the signature -/

theorem byteAt_eq {vch : Valtype} {i : Nat} (h : i < vch.length) : byteAt vch i = vch[i].toNat := by
  rw [byteAt, List.getElem?_eq_getElem h]
  rfl

theorem high_bit (b : UInt8) : b &&& 0x80 ≠ 0 ↔ ¬ b.toNat < 128 := by
  have hall : ∀ n < 256, (n &&& 0x80 ≠ 0 ↔ ¬ n < 128) := by decide +kernel
  rw [← hall b.toNat b.toNat_lt, Ne, ← UInt8.toNat_inj]
  rfl

/-- A number of a signature is tested inside it. -/
theorem checkNumber_eq {vchSig : Valtype} {ofs nLen : Nat} (hofs : 2 ≤ ofs) (hlen : ofs + nLen < vchSig.length) :
    DerSignature.checkNumber vchSig ofs nLen =
      some (decide (byteAt vchSig (ofs - 2) = 0x02) && isCanonicalElement ((vchSig.drop ofs).take nLen)) := by
  have htype : ofs - 2 < vchSig.length := by omega
  have hfirst : ofs < vchSig.length := by omega
  rw [DerSignature.checkNumber, List.getElem?_eq_getElem htype, Option.bind_eq_bind, Option.bind_some, byteAt_eq htype]
  by_cases htwo : vchSig[ofs - 2] = 0x02
  · rw [if_neg (not_not_intro htwo), htwo, show decide ((0x02 : UInt8).toNat = 0x02) = true from rfl, Bool.true_and]
    cases nLen with
    | zero => rfl
    | succ nLen =>
      rw [if_neg (Nat.succ_ne_zero _), List.getElem?_eq_getElem hfirst, Option.bind_some,
        List.drop_eq_getElem_cons hfirst, List.take_succ_cons]
      by_cases hhigh : vchSig[ofs] &&& 0x80 ≠ 0
      · have hnot := (high_bit _).mp hhigh
        rw [if_pos hhigh]
        cases nLen with
        | zero =>
          rw [List.take_zero, isCanonicalElement, decide_eq_false hnot]
          rfl
        | succ nLen =>
          rw [List.drop_eq_getElem_cons (show ofs + 1 < vchSig.length by omega), List.take_succ_cons,
            isCanonicalElement, decide_eq_false hnot]
          rfl
      · have hlow : vchSig[ofs].toNat < 128 := not_not.mp (mt (high_bit _).mpr hhigh)
        rw [if_neg hhigh]
        cases nLen with
        | zero =>
          rw [List.take_zero, isCanonicalElement, decide_eq_true hlow, if_neg (fun h => absurd h.1 (by decide))]
          rfl
        | succ nLen =>
          have hsecond : ofs + 1 < vchSig.length := by omega
          rw [List.drop_eq_getElem_cons hsecond, List.take_succ_cons, isCanonicalElement, decide_eq_true hlow,
            Bool.true_and, List.getElem?_eq_getElem hsecond, Option.bind_some]
          by_cases hzero : vchSig[ofs] = 0
          · rw [if_pos ⟨by omega, hzero⟩]
            refine congrArg some (decide_eq_decide.mpr ?_)
            rw [high_bit]
            exact not_congr ⟨fun h => ⟨hzero, h⟩, fun h => h.2⟩
          · rw [if_neg (fun h => hzero h.2), decide_eq_true (show ¬ (vchSig[ofs] = 0 ∧ vchSig[ofs + 1].toNat < 128) from
              fun h => hzero h.1)]
            rfl
  · rw [if_pos htwo]
    have : ¬ vchSig[ofs - 2].toNat = 0x02 := fun h => htwo (UInt8.toNat_inj.mp h)
    rw [decide_eq_false this]
    rfl

/-- The tests of a signature. -/
structure SigTests (vchSig : Valtype) (nLenR nLenS : Nat) : Prop where
  short : 9 ≤ vchSig.length
  long : vchSig.length ≤ 73
  type : SIGHASH_ALL ≤ byteAt vchSig (vchSig.length - 1) &&& 0x7f ∧
    byteAt vchSig (vchSig.length - 1) &&& 0x7f ≤ SIGHASH_SINGLE
  tag : byteAt vchSig 0 = 0x30
  len : byteAt vchSig 1 = vchSig.length - 3
  placed : 5 + nLenR < vchSig.length
  sum : nLenR + nLenS + 7 = vchSig.length
  numberR : (decide (byteAt vchSig 2 = 0x02) && isCanonicalElement ((vchSig.drop 4).take nLenR)) = true
  numberS : (decide (byteAt vchSig (4 + nLenR) = 0x02) &&
    isCanonicalElement ((vchSig.drop (6 + nLenR)).take nLenS)) = true
  element : checkSignatureElement ((vchSig.drop (6 + nLenR)).take nLenS) = true

theorem sigTests_iff (vchSig : Valtype) :
    isCanonicalSignature vchSig = true ↔ SigTests vchSig (byteAt vchSig 3) (byteAt vchSig (5 + byteAt vchSig 3)) := by
  simp only [isCanonicalSignature, Bool.and_eq_true, decide_eq_true_eq]
  refine ⟨fun h => ?_, fun h => ?_⟩
  · obtain ⟨⟨⟨⟨⟨⟨⟨⟨⟨⟨⟨⟨h9, h73⟩, hall⟩, hsingle⟩, htag⟩, hlen⟩, hplaced⟩, hsum⟩, htypeR⟩, hR⟩, htypeS⟩, hS⟩, hhalf⟩ := h
    exact ⟨h9, h73, ⟨hall, hsingle⟩, htag, hlen, hplaced, hsum, by simp [htypeR, hR], by simp [htypeS, hS], hhalf⟩
  · have hR := h.numberR
    have hS := h.numberS
    rw [Bool.and_eq_true, decide_eq_true_eq] at hR hS
    exact ⟨⟨⟨⟨⟨⟨⟨⟨⟨⟨⟨⟨h.short, h.long⟩, h.type.1⟩, h.type.2⟩, h.tag⟩, h.len⟩, h.placed⟩, h.sum⟩, hR.1⟩, hR.2⟩, hS.1⟩,
      hS.2⟩, h.element⟩

/-- **The signature is read inside**, and the result is that of the model in which
the script machine runs. -/
theorem isCanonicalSignature_eq (vchSig : Valtype) :
    DerSignature.isCanonicalSignature vchSig = some (isCanonicalSignature vchSig) := by
  have hfalse : ¬ SigTests vchSig (byteAt vchSig 3) (byteAt vchSig (5 + byteAt vchSig 3)) →
      some false = some (isCanonicalSignature vchSig) := fun h => by
    rw [Bool.eq_false_iff.mpr (mt (sigTests_iff vchSig).mp h)]
  unfold DerSignature.isCanonicalSignature
  by_cases h9 : vchSig.length < 9
  · rw [if_pos h9]
    exact hfalse fun h => absurd h.short (Nat.not_le.mpr h9)
  by_cases h73 : vchSig.length > 73
  · rw [if_neg h9, if_pos h73]
    exact hfalse fun h => absurd h.long (Nat.not_le.mpr h73)
  have hread : ∀ {i : Nat}, i < vchSig.length → ∃ b : UInt8, vchSig[i]? = some b ∧ b.toNat = byteAt vchSig i :=
    fun hi => ⟨_, List.getElem?_eq_getElem hi, (byteAt_eq hi).symm⟩
  obtain ⟨last, hlast, hlast'⟩ := hread (i := vchSig.length - 1) (by omega)
  obtain ⟨tag, htag, htag'⟩ := hread (i := 0) (by omega)
  obtain ⟨len, hlen, hlen'⟩ := hread (i := 1) (by omega)
  obtain ⟨lenR, hlenR, hlenR'⟩ := hread (i := 3) (by omega)
  rw [if_neg h9, if_neg h73, hlast, Option.bind_eq_bind, Option.bind_some]
  dsimp only
  rw [hlast']
  by_cases htype : byteAt vchSig (vchSig.length - 1) &&& 0x7f < SIGHASH_ALL ∨
      byteAt vchSig (vchSig.length - 1) &&& 0x7f > SIGHASH_SINGLE
  · rw [if_pos htype]
    exact hfalse fun h => by
      have := h.type
      omega
  rw [if_neg htype, htag, Option.bind_some]
  by_cases h30 : tag ≠ 0x30
  · rw [if_pos h30]
    exact hfalse fun h => h30 (UInt8.toNat_inj.mp (htag'.trans h.tag))
  rw [if_neg h30, hlen, Option.bind_some, hlen']
  by_cases hmarker : byteAt vchSig 1 ≠ vchSig.length - 3
  · rw [if_pos hmarker]
    exact hfalse fun h => hmarker h.len
  rw [if_neg hmarker, hlenR, Option.bind_some, hlenR']
  by_cases hplaced : 5 + byteAt vchSig 3 ≥ vchSig.length
  · rw [if_pos hplaced]
    exact hfalse fun h => absurd h.placed (Nat.not_lt.mpr hplaced)
  obtain ⟨lenS, hlenS, hlenS'⟩ := hread (i := 5 + byteAt vchSig 3) (by omega)
  rw [if_neg hplaced, hlenS, Option.bind_some, hlenS']
  by_cases hsum : byteAt vchSig 3 + byteAt vchSig (5 + byteAt vchSig 3) + 7 ≠ vchSig.length
  · rw [if_pos hsum]
    exact hfalse fun h => hsum h.sum
  rw [if_neg hsum, checkNumber_eq (by decide) (by omega), Option.bind_eq_bind, Option.bind_some]
  cases hR : decide (byteAt vchSig (4 - 2) = 0x02) && isCanonicalElement ((vchSig.drop 4).take (byteAt vchSig 3)) with
  | false =>
    rw [if_pos rfl]
    exact hfalse fun h => absurd (hR.symm.trans h.numberR) (by decide)
  | true =>
    rw [if_neg (by decide), checkNumber_eq (by omega) (by omega), Option.bind_some,
      show 6 + byteAt vchSig 3 - 2 = 4 + byteAt vchSig 3 by omega]
    cases hS : decide (byteAt vchSig (4 + byteAt vchSig 3) = 0x02) &&
        isCanonicalElement ((vchSig.drop (6 + byteAt vchSig 3)).take (byteAt vchSig (5 + byteAt vchSig 3))) with
    | false =>
      rw [if_pos rfl]
      exact hfalse fun h => absurd (hS.symm.trans h.numberS) (by decide)
    | true =>
      rw [if_neg (by decide), DerSignature.readSig, if_pos (by omega), Option.bind_eq_bind, Option.bind_some,
        checkSignatureElement_eq]
      refine congrArg some (Bool.eq_iff_iff.mpr ⟨fun h => (sigTests_iff vchSig).mpr ?_, fun h =>
        ((sigTests_iff vchSig).mp h).element⟩)
      exact ⟨by omega, by omega, by omega, htag'.symm.trans (congrArg UInt8.toNat (not_not.mp h30)),
        not_not.mp hmarker, by omega, not_not.mp hsum, hR, hS, h⟩

/-! ## Minimal numbers -/

/-- The number of bytes of a number in DER. -/
theorem bnNumBits_div_iff {n k : Nat} : bnNumBits n / 8 = k ↔ n < 2 ^ (8 * k + 7) ∧ (k = 0 ∨ 2 ^ (8 * k - 1) ≤ n) := by
  by_cases hzero : n = 0
  · subst hzero
    have hpos : ∀ j, 0 < 2 ^ j := fun j => Nat.pow_pos (by decide)
    have h1 := hpos (8 * k + 7)
    have h2 := hpos (8 * k - 1)
    rw [show bnNumBits 0 = 0 from rfl]
    omega
  · rw [← Nat.le_log2 hzero, ← Nat.log2_lt hzero, bnNumBits, if_neg hzero]
    omega

theorem pow_eight (k : Nat) : 2 ^ (8 * k + 7) = 128 * 256 ^ k := by
  rw [Nat.pow_add, Nat.pow_mul, Nat.mul_comm]

/-- The tests of a number of a signature ask for its minimal form. -/
theorem isCanonicalElement_iff {l : Valtype} {k : Nat} (hlen : l.length = k + 1) :
    isCanonicalElement l = true ↔ beNat l < 2 ^ (8 * k + 7) ∧ (k = 0 ∨ 2 ^ (8 * k - 1) ≤ beNat l) := by
  obtain ⟨b, rest, rfl⟩ := List.exists_cons_of_length_eq_add_one hlen
  have hrest : rest.length = k := Nat.succ.inj hlen
  have hlt := beNat_lt rest
  rw [beNat_cons, pow_eight]
  rw [hrest] at hlt ⊢
  have hhigh : beNat rest + 256 ^ k * b.toNat < 128 * 256 ^ k ↔ b.toNat < 128 := by
    rw [Nat.mul_comm (256 ^ k)]
    refine ⟨fun h => ?_, fun h => ?_⟩
    · by_contra hge
      have := Nat.mul_le_mul_right (256 ^ k) (Nat.not_lt.mp hge)
      omega
    · have := Nat.mul_le_mul_right (256 ^ k) (Nat.succ_le_of_lt h)
      rw [Nat.succ_mul] at this
      omega
  rw [hhigh]
  cases rest with
  | nil =>
    obtain rfl : k = 0 := hrest.symm
    simp [isCanonicalElement]
  | cons b' rest =>
    obtain ⟨j, rfl⟩ : ∃ j, k = j + 1 := ⟨rest.length, hrest.symm⟩
    have hj : rest.length = j := Nat.succ.inj hrest
    have hlow : 2 ^ (8 * (j + 1) - 1) ≤ beNat (b' :: rest) + 256 ^ (j + 1) * b.toNat ↔ ¬ (b = 0 ∧ b'.toNat < 128) := by
      have hltr := beNat_lt rest
      rw [show 8 * (j + 1) - 1 = 8 * j + 7 by omega, pow_eight, beNat_cons]
      rw [hj] at hltr ⊢
      by_cases hb : b = 0
      · subst hb
        rw [show (0 : UInt8).toNat = 0 from rfl, Nat.mul_zero, Nat.add_zero, Nat.mul_comm (256 ^ j)]
        by_cases hb' : b'.toNat < 128
        · have := Nat.mul_le_mul_right (256 ^ j) (Nat.succ_le_of_lt hb')
          rw [Nat.succ_mul] at this
          exact iff_of_false (by omega) (fun h => h ⟨rfl, hb'⟩)
        · have := Nat.mul_le_mul_right (256 ^ j) (Nat.not_lt.mp hb')
          exact iff_of_true (by omega) (fun h => hb' h.2)
      · have hpos : 1 ≤ b.toNat := Nat.pos_of_ne_zero fun h0 => hb (UInt8.toNat_inj.mp h0)
        have hle : 256 ^ (j + 1) ≤ 256 ^ (j + 1) * b.toNat := Nat.le_mul_of_pos_right _ hpos
        rw [Nat.pow_succ] at hle
        refine iff_of_true ?_ fun h => hb h.1
        rw [Nat.pow_succ]
        omega
    rw [hlow, isCanonicalElement, Bool.and_eq_true, decide_eq_true_eq, decide_eq_true_eq]
    exact and_congr_right fun _ => ⟨.inr, fun h => h.resolve_left (Nat.succ_ne_zero j)⟩

theorem length_derInt (n : Nat) : (derInt n).length = bnNumBits n / 8 + 1 := by
  rw [derInt, List.length_reverse, length_leBytes]

theorem beNat_derInt (n : Nat) : beNat (derInt n) = n := by
  have hlt := (bnNumBits_div_iff.mp (Eq.refl (bnNumBits n / 8))).1
  rw [pow_eight] at hlt
  rw [beNat, derInt, List.reverse_reverse, leNat_leBytes, Nat.mod_eq_of_lt]
  rw [Nat.pow_succ]
  omega

/-- **The minimal forms** are those of numbers in DER. -/
theorem isCanonicalElement_iff_derInt {l : Valtype} : isCanonicalElement l = true ↔ l = derInt (beNat l) := by
  refine ⟨fun h => ?_, fun h => ?_⟩
  · cases hl : l with
    | nil =>
      rw [hl] at h
      cases h
    | cons b rest =>
      rw [← hl]
      have hlen : l.length = rest.length + 1 := by rw [hl, List.length_cons]
      have hsize := bnNumBits_div_iff.mpr ((isCanonicalElement_iff hlen).mp h)
      rw [derInt, hsize, beNat, ← hlen, ← List.length_reverse, leBytes_leNat, List.reverse_reverse]
  · rw [h, isCanonicalElement_iff (length_derInt _), beNat_derInt]
    exact bnNumBits_div_iff.mp rfl

/-! ## The form of a signature -/

/-- The bytes of a signature with two numbers. -/
def sigForm (v0 v1 v2 v3 : UInt8) (R : Valtype) (w0 w1 : UInt8) (S : Valtype) (b : UInt8) : Valtype :=
  v0 :: v1 :: v2 :: v3 :: (R ++ w0 :: w1 :: (S ++ [b]))

theorem exists_sigForm {vchSig : Valtype} {nLenR nLenS : Nat} (h : nLenR + nLenS + 7 = vchSig.length) :
    ∃ v0 v1 v2 v3 R w0 w1 S b, vchSig = sigForm v0 v1 v2 v3 R w0 w1 S b ∧ R.length = nLenR ∧ S.length = nLenS := by
  obtain ⟨v0, l, rfl⟩ := List.exists_cons_of_length_eq_add_one (n := nLenR + nLenS + 6) h.symm
  obtain ⟨v1, l, rfl⟩ := List.exists_cons_of_length_eq_add_one (n := nLenR + nLenS + 5) (Nat.succ.inj h).symm
  simp only [List.length_cons] at h
  obtain ⟨v2, l, rfl⟩ := List.exists_cons_of_length_eq_add_one (l := l) (n := nLenR + nLenS + 4) (by omega)
  simp only [List.length_cons] at h
  obtain ⟨v3, l, rfl⟩ := List.exists_cons_of_length_eq_add_one (l := l) (n := nLenR + nLenS + 3) (by omega)
  simp only [List.length_cons] at h
  have htail : (l.drop nLenR).length = nLenS + 3 := by
    rw [List.length_drop]
    omega
  obtain ⟨w0, l₁, h₀⟩ := List.exists_cons_of_length_eq_add_one htail
  rw [h₀] at htail
  obtain ⟨w1, l₂, rfl⟩ := List.exists_cons_of_length_eq_add_one (Nat.succ.inj htail)
  have hl₂ : l₂.length = nLenS + 1 := Nat.succ.inj (Nat.succ.inj htail)
  obtain ⟨S, b, rfl⟩ := List.eq_nil_or_concat l₂ |>.resolve_left (fun h => by simp [h] at hl₂)
  refine ⟨v0, v1, v2, v3, l.take nLenR, w0, w1, S, b, ?_, ?_, ?_⟩
  · rw [sigForm, ← List.concat_eq_append, ← h₀, List.take_append_drop]
  · rw [List.length_take]
    omega
  · simpa using hl₂

section Form

variable {v0 v1 v2 v3 w0 w1 b : UInt8} {R S : Valtype}

theorem length_sigForm : (sigForm v0 v1 v2 v3 R w0 w1 S b).length = R.length + S.length + 7 := by
  simp only [sigForm, List.length_cons, List.length_append, List.length_nil]
  omega

theorem drop_sigForm (i : Nat) :
    (sigForm v0 v1 v2 v3 R w0 w1 S b).drop (4 + R.length + i) = (w0 :: w1 :: (S ++ [b])).drop i := by
  rw [show 4 + R.length + i = R.length + i + 4 by omega]
  show (R ++ w0 :: w1 :: (S ++ [b])).drop (R.length + i) = _
  rw [← List.drop_drop, List.drop_left]

theorem byteAt_sigForm (i : Nat) :
    byteAt (sigForm v0 v1 v2 v3 R w0 w1 S b) (4 + R.length + i) = byteAt (w0 :: w1 :: (S ++ [b])) i := by
  have h := congrArg (fun l => ((l[0]?).map UInt8.toNat).getD 0) (@drop_sigForm v0 v1 v2 v3 w0 w1 b R S i)
  simp only [List.getElem?_drop, Nat.add_zero] at h
  exact h

/-- What the tests read of a signature in its form. -/
theorem sigTests_sigForm :
    SigTests (sigForm v0 v1 v2 v3 R w0 w1 S b) R.length S.length ↔
      9 ≤ R.length + S.length + 7 ∧ R.length + S.length + 7 ≤ 73 ∧ hashTypeByte b ∧ v0 = 0x30 ∧
        v1.toNat = R.length + S.length + 4 ∧ v2 = 0x02 ∧ isCanonicalElement R = true ∧ w0 = 0x02 ∧
        isCanonicalElement S = true ∧ checkSignatureElement S = true := by
  have hlen := @length_sigForm v0 v1 v2 v3 w0 w1 b R S
  have hlast : byteAt (sigForm v0 v1 v2 v3 R w0 w1 S b) ((sigForm v0 v1 v2 v3 R w0 w1 S b).length - 1) = b.toNat := by
    rw [hlen, show R.length + S.length + 7 - 1 = 4 + R.length + (S.length + 2) by omega, byteAt_sigForm]
    show byteAt (S ++ [b]) S.length = b.toNat
    simp [byteAt]
  have hR : ((sigForm v0 v1 v2 v3 R w0 w1 S b).drop 4).take R.length = R := List.take_left
  have hS : ((sigForm v0 v1 v2 v3 R w0 w1 S b).drop (6 + R.length)).take S.length = S := by
    rw [show 6 + R.length = 4 + R.length + 2 by omega, drop_sigForm]
    exact List.take_left
  have hw0 : byteAt (sigForm v0 v1 v2 v3 R w0 w1 S b) (4 + R.length) = w0.toNat := byteAt_sigForm 0
  have hbyte : ∀ {v w : UInt8}, v.toNat = w.toNat ↔ v = w := UInt8.toNat_inj
  refine ⟨fun h => ?_, fun ⟨h9, h73, htype, htag, hmark, h2, hRok, h2', hSok, hhalf⟩ => ?_⟩
  · have hshort := h.short
    have hlong := h.long
    have hmark := h.len
    have htype := h.type
    have hnumR := h.numberR
    have hnumS := h.numberS
    have helement := h.element
    rw [hlen] at hshort hlong hmark
    rw [hlast] at htype
    rw [hR, Bool.and_eq_true, decide_eq_true_eq] at hnumR
    rw [hS, hw0, Bool.and_eq_true, decide_eq_true_eq] at hnumS
    rw [hS] at helement
    exact ⟨hshort, hlong, htype, hbyte.mp h.tag, hmark, hbyte.mp hnumR.1, hnumR.2, hbyte.mp hnumS.1, hnumS.2, helement⟩
  · refine ⟨by rw [hlen]; exact h9, by rw [hlen]; exact h73, by rw [hlast]; exact htype,
      congrArg UInt8.toNat htag, ?_, ?_, ?_, ?_, ?_, by rw [hS]; exact hhalf⟩
    · rw [hlen]
      exact hmark
    · rw [hlen]
      omega
    · rw [hlen]
    · rw [hR, hRok, Bool.and_true]
      exact decide_eq_true (congrArg UInt8.toNat h2)
    · rw [hS, hw0, hSok, Bool.and_true]
      exact decide_eq_true (congrArg UInt8.toNat h2')

end Form

theorem derEncode_sigForm (r s : Nat) (b : UInt8) :
    derEncode r s ++ [b] = sigForm 0x30 (UInt8.ofNat ((derInt r).length + (derInt s).length + 4)) 0x02
      (UInt8.ofNat (derInt r).length) (derInt r) 0x02 (UInt8.ofNat (derInt s).length) (derInt s) b := by
  simp [derEncode, sigForm]

theorem checkSignatureElement_derInt (s : Nat) :
    checkSignatureElement (derInt s) = true ↔ 1 ≤ s ∧ s ≤ maxModHalfOrder := by
  have hnat := beNat_derInt s
  rw [beNat] at hnat
  rw [checkSignatureElement, hnat, Bool.and_eq_true, decide_eq_true_eq, decide_eq_true_eq]
  exact Iff.rfl

/-- **The canonical signatures** are those in DER. -/
theorem isCanonicalSignature_iff (vchSig : Valtype) : isCanonicalSignature vchSig = true ↔ DerForm vchSig := by
  rw [sigTests_iff]
  refine ⟨fun h => ?_, fun ⟨r, s, b, hform, hpos, hhalf, htype, h9, h73⟩ => ?_⟩
  · obtain ⟨v0, v1, v2, v3, R, w0, w1, S, b, hform, hR, hS⟩ := exists_sigForm h.sum
    have hlenR : v3.toNat = R.length := by
      rw [hR, hform]
      rfl
    have hlenS : w1.toNat = S.length := by
      rw [hS, ← hR, show 5 + R.length = 4 + R.length + 1 by omega, hform, byteAt_sigForm]
      rfl
    rw [← hS, ← hR, hform] at h
    obtain ⟨h9, h73, htype, rfl, hmark, rfl, hRok, rfl, hSok, hhalf⟩ := sigTests_sigForm.mp h
    have hRder := isCanonicalElement_iff_derInt.mp hRok
    have hSder := isCanonicalElement_iff_derInt.mp hSok
    have hbyte : ∀ {v : UInt8} {n : Nat}, v.toNat = n → UInt8.ofNat n = v := by
      intro v n h
      rw [← h, UInt8.ofNat_toNat]
    have hbounds := checkSignatureElement_derInt (beNat S)
    rw [← hSder] at hbounds
    refine ⟨beNat R, beNat S, b, ?_, (hbounds.mp hhalf).1, (hbounds.mp hhalf).2, htype, ?_, ?_⟩
    · rw [derEncode_sigForm, ← hRder, ← hSder, hbyte hmark, hbyte hlenR, hbyte hlenS, hform]
    · rw [hform, length_sigForm]
      exact h9
    · rw [hform, length_sigForm]
      exact h73
  · rw [derEncode_sigForm] at hform
    rw [hform, length_sigForm] at h9 h73
    have hnat : ∀ {n : Nat}, n ≤ 73 → (UInt8.ofNat n).toNat = n := by
      intro n hn
      rw [UInt8.toNat_ofNat']
      omega
    have hlenR : byteAt vchSig 3 = (derInt r).length := by
      rw [hform]
      exact hnat (by omega)
    have hlenS : byteAt vchSig (5 + (derInt r).length) = (derInt s).length := by
      rw [show 5 + (derInt r).length = 4 + (derInt r).length + 1 by omega, hform, byteAt_sigForm]
      exact hnat (by omega)
    have helement : ∀ n, isCanonicalElement (derInt n) = true := fun n =>
      isCanonicalElement_iff_derInt.mpr (by rw [beNat_derInt])
    rw [hlenR, hlenS, hform]
    exact sigTests_sigForm.mpr ⟨h9, h73, htype, rfl, hnat (by omega), rfl, helement r, rfl, helement s,
      (checkSignatureElement_derInt s).mpr ⟨hpos, hhalf⟩⟩

/-! ## Signing -/

/-- OpenSSL with the keys of a curve: the order of the curve, the two numbers of
a signature, which can differ from call to call, and `i2d_ECDSA_SIG`. -/
structure Ssl (K : Type) where
  order : Nat
  ecdsaDoSign : Nat → K → Uint256 → Option (Nat × Nat)
  i2dEcdsaSig : Nat → Nat → Valtype

namespace Ssl

variable {K : Type} (ssl : Ssl K)

/-- `CKey::Sign`: the second number is made small. -/
def sign (call : Nat) (key : K) (hash : Uint256) : Option Valtype :=
  match ssl.ecdsaDoSign call key hash with
  | none => none
  | some (pr, ps) =>
    let halforder := ssl.order >>> 1
    let ps := if ps > halforder then ssl.order - ps else ps
    some (ssl.i2dEcdsaSig pr ps)

/-- What the code relies on: the curve is secp256k1, the numbers of a signature
are from one to the order minus one, and they are written in minimal DER. -/
structure Lawful : Prop where
  order_eq : ssl.order = beNat vchMaxModOrder + 1
  range : ∀ call key hash r s, ssl.ecdsaDoSign call key hash = some (r, s) →
    1 ≤ r ∧ r < ssl.order ∧ 1 ≤ s ∧ s < ssl.order
  minimal : ∀ r s, 1 ≤ r → r < ssl.order → 1 ≤ s → s < ssl.order → ssl.i2dEcdsaSig r s = derEncode r s

end Ssl

theorem beNat_vchMaxModOrder : beNat vchMaxModOrder = 2 * maxModHalfOrder := by decide +kernel

theorem bnNumBits_le {n k : Nat} (h : n < 2 ^ k) : bnNumBits n ≤ k := by
  unfold bnNumBits
  split
  next => exact Nat.zero_le _
  next hzero => exact (Nat.log2_lt hzero).mpr h

/-- What is signed is in DER, with the second number at most half of the order. -/
theorem derForm_sign {K : Type} {ssl : Ssl K} (h : ssl.Lawful) {call : Nat} {key : K} {hash : Uint256}
    {vchSig : Valtype} (hsign : ssl.sign call key hash = some vchSig) {b : UInt8} (hb : hashTypeByte b) : DerForm (vchSig ++ [b]) := by
  have horder : ssl.order = 2 * maxModHalfOrder + 1 := by rw [h.order_eq, beNat_vchMaxModOrder]
  have hhalf : ssl.order >>> 1 = maxModHalfOrder := by
    rw [Nat.shiftRight_eq_div_pow, horder]
    omega
  unfold Ssl.sign at hsign
  cases hnumbers : ssl.ecdsaDoSign call key hash with
  | none =>
    rw [hnumbers] at hsign
    cases hsign
  | some p =>
    obtain ⟨r, s⟩ := p
    obtain ⟨hr, hr', hs, hs'⟩ := h.range _ _ _ _ _ hnumbers
    rw [hnumbers] at hsign
    dsimp only at hsign
    rw [hhalf] at hsign
    obtain ⟨ps, hps, hpos, hlow⟩ : ∃ ps, (if s > maxModHalfOrder then ssl.order - s else s) = ps ∧ 1 ≤ ps ∧
        ps ≤ maxModHalfOrder := by
      refine ⟨_, rfl, ?_⟩
      split <;> omega
    rw [hps] at hsign
    have hsig : vchSig = derEncode r ps := by
      rw [← Option.some.inj hsign]
      exact h.minimal r ps hr hr' hpos (by omega)
    have hrbits : bnNumBits r ≤ 256 := bnNumBits_le (Nat.lt_trans hr' (by rw [horder]; decide))
    have hsbits : bnNumBits ps ≤ 255 := bnNumBits_le (Nat.lt_of_le_of_lt hlow (by decide))
    refine ⟨r, ps, b, by rw [hsig], hpos, hlow, hb, ?_⟩
    rw [hsig, derEncode_sigForm, length_sigForm, length_derInt, length_derInt]
    omega

/-! ## CanonicalSignatures signatures -/

/-- **Signatures are canonical**: the tests read a string inside it and admit
exactly those in DER, and what is signed is admitted with its hash type. -/
structure CanonicalSignatures {K : Type} (ssl : Ssl K) : Prop where
  inside : ∀ vchSig, ∃ ok, DerSignature.isCanonicalSignature vchSig = some ok
  form : ∀ vchSig, DerSignature.isCanonicalSignature vchSig = some true ↔ DerForm vchSig
  signed : ∀ call key hash vchSig b, ssl.sign call key hash = some vchSig → hashTypeByte b →
    DerSignature.isCanonicalSignature (vchSig ++ [b]) = some true

theorem signatures_canonical {K : Type} {ssl : Ssl K} (h : ssl.Lawful) : CanonicalSignatures ssl := by
  have hform : ∀ vchSig, DerSignature.isCanonicalSignature vchSig = some true ↔ DerForm vchSig := fun vchSig => by
    rw [isCanonicalSignature_eq, Option.some.injEq, isCanonicalSignature_iff]
  exact ⟨fun vchSig => ⟨_, isCanonicalSignature_eq vchSig⟩, hform, fun _ _ _ _ _ hsign hb =>
    (hform _).mpr (derForm_sign h hsign hb)⟩

namespace Sample

/-- Every signature is of the numbers one and the order minus one. -/
def ssl : Ssl Unit := ⟨beNat vchMaxModOrder + 1, fun _ _ _ => some (1, beNat vchMaxModOrder), derEncode⟩

/-- A signature whose first number is zero. -/
def zeroSig : Valtype := [0x30, 0x06, 0x02, 0x01, 0x00, 0x02, 0x01, 0x01, 0x01]

end Sample

theorem signatures_canonical_sample : CanonicalSignatures Sample.ssl :=
  signatures_canonical ⟨rfl, fun _ _ _ r s hsign => by
    obtain ⟨rfl, rfl⟩ := Prod.mk.inj (Option.some.inj hsign)
    rw [show Sample.ssl.order = beNat vchMaxModOrder + 1 from rfl, beNat_vchMaxModOrder]
    decide, fun _ _ _ _ _ _ => rfl⟩

/-- Zero is admitted for the first number, so not both numbers have to be
positive. -/
theorem not_positive_numbers : DerSignature.isCanonicalSignature Sample.zeroSig = some true ∧
    ¬ ∃ r s b, Sample.zeroSig = derEncode r s ++ [b] ∧ 1 ≤ r := by
  refine ⟨by decide +kernel, fun ⟨r, s, b, hform, hr⟩ => ?_⟩
  rw [derEncode_sigForm] at hform
  have hlen := congrArg List.length hform
  rw [length_sigForm, length_derInt, length_derInt, show Sample.zeroSig.length = 9 from rfl] at hlen
  have hfirst : derInt r = [0x00] := by
    have hR : (derInt r).length = 1 := by
      rw [length_derInt]
      omega
    have htake := congrArg (fun l => (l.drop 4).take (derInt r).length) hform
    rw [show ((sigForm _ _ _ _ (derInt r) _ _ _ _).drop 4).take (derInt r).length = derInt r from List.take_left,
      hR] at htake
    exact htake.symm
  have hnat := beNat_derInt r
  rw [hfirst, show beNat [0x00] = 0 from rfl] at hnat
  omega

end Pinkcoin
