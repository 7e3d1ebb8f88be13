/-
Network addresses as text: the names of the overlay networks, hosts and their
ports.
-/
import Pinkcoin.Lib.Decimal
import Pinkcoin.Net.Address
import Pinkcoin.Text.Base64

namespace Pinkcoin

open Decimal (print strtoll isDigit)

/-! ## Special names -/

namespace CNetAddr

/-- The 16 bytes of an address, from a prefix and what follows it. -/
def ofBytes (pch vchAddr : List UInt8) : Option CNetAddr :=
  if h : (pch ++ vchAddr).length = 16 then some ⟨⟨(pch ++ vchAddr).toArray, by simpa using h⟩⟩ else none

/-- One branch of `SetSpecial`: the name without its suffix, and the prefix
that is copied. -/
def setDecoded (a : CNetAddr) (pch strBase32 : List UInt8) : Bool × CNetAddr :=
  match ofBytes pch (decodeBase32 strBase32).1 with
  | some b => (true, b)
  | none => (false, a)

/-- The name is longer than the suffix, and ends with it. -/
def HasSuffix (strName suffix : List UInt8) : Prop :=
  suffix.length < strName.length ∧ strName.drop (strName.length - suffix.length) = suffix

instance (strName suffix : List UInt8) : Decidable (HasSuffix strName suffix) := inferInstanceAs (Decidable (_ ∧ _))

/-- The name without its suffix. -/
def stem (strName suffix : List UInt8) : List UInt8 := strName.take (strName.length - suffix.length)

def onion : List UInt8 := chars ".onion"
def i2p : List UInt8 := chars ".oc.b32.i2p"

/-- `SetSpecial`: what it returns, and the address after it. Both branches copy
the same prefix. -/
def setSpecial (a : CNetAddr) (strName : List UInt8) : Bool × CNetAddr :=
  if HasSuffix strName onion then a.setDecoded pchOnionCat (stem strName onion)
  else if HasSuffix strName i2p then a.setDecoded pchOnionCat (stem strName i2p)
  else (false, a)

end CNetAddr

/-! ## Hosts -/

/-- `struct sockaddr`, of IPv4 or IPv6. -/
inductive Sockaddr where
  | inet (sin_addr : List UInt8) (sin_port : UInt16)
  | inet6 (sin6_addr : List UInt8) (sin6_port : UInt16)
  deriving DecidableEq

/-- `CService::GetSockAddr`. -/
def CService.getSockAddr (s : CService) : Option Sockaddr :=
  if s.addr.isIPv4 then some (.inet (s.addr.ip.toList.drop 12) s.port)
  else if !s.addr.isTor && !s.addr.isI2P then some (.inet6 s.addr.ip.toList s.port)
  else none

/-- `%x`. -/
def printHex (n : Nat) : List UInt8 := (Nat.toDigits 16 n).map fun c => UInt8.ofNat c.toNat

section

variable (getnameinfo : Sockaddr → Option (List UInt8))

/-- `CNetAddr::ToStringIP`. -/
def CNetAddr.toStringIP (a : CNetAddr) : List UInt8 :=
  if a.isTor then encodeBase32 (a.ip.toList.drop 6) ++ onion
  else if a.isI2P then encodeBase32 (a.ip.toList.drop 6) ++ i2p
  else
    match (CService.mk a 0).getSockAddr.bind getnameinfo with
    | some name => name
    | none =>
      if a.isIPv4 then
        print (a.getByte 3) ++ chars "." ++ print (a.getByte 2) ++ chars "." ++ print (a.getByte 1) ++ chars "." ++
          print (a.getByte 0)
      else
        List.intercalate (chars ":")
          ([15, 13, 11, 9, 7, 5, 3, 1].map fun n => printHex (a.getByte n <<< 8 ||| a.getByte (n - 1)))

/-- `CService::ToStringIPPort`. -/
def CService.toStringIPPort (s : CService) : List UInt8 :=
  if s.addr.isIPv4 || s.addr.isTor || s.addr.isI2P then
    s.addr.toStringIP getnameinfo ++ chars ":" ++ print s.port.toNat
  else chars "[" ++ s.addr.toStringIP getnameinfo ++ chars "]:" ++ print s.port.toNat

end

/-- `find_last_of`, of one character. -/
def findLastOf (c : UInt8) : List UInt8 → Option Nat
  | [] => none
  | x :: s =>
    match findLastOf c s with
    | some i => some (i + 1)
    | none => if x = c then some 0 else none

/-- The conversion of a `long` to an `int`. -/
def toInt32 (n : Int) : Int := (n + 2 ^ 31) % 2 ^ 32 - 2 ^ 31

/-- The first part of `SplitHostPort`: the port, and what is in front of its
colon. -/
def splitPort (s : List UInt8) (portOut : Int) : Int × List UInt8 :=
  match findLastOf 58 s with
  | none => (portOut, s)
  | some colon =>
    let fBracketed := s.getD 0 0 = 91 ∧ s.getD (colon - 1) 0 = 93
    let fMultiColon := (findLastOf 58 (if colon = 0 then s else s.take colon)).isSome
    if colon = 0 ∨ fBracketed ∨ !fMultiColon then
      let (n, endp) := strtoll ((s.drop (colon + 1)).takeWhile (· ≠ 0))
      let n := toInt32 n
      if endp = [] ∧ 0 ≤ n then (if 0 < n ∧ n < 0x10000 then n else portOut, s.take colon) else (portOut, s)
    else (portOut, s)

/-- Brackets are taken off. -/
def hostOf (s : List UInt8) : List UInt8 :=
  if 0 < s.length ∧ s.getD 0 0 = 91 ∧ s.getD (s.length - 1) 0 = 93 then (s.drop 1).take (s.length - 2) else s

/-- `SplitHostPort`: `portOut` and `hostOut` after it. -/
def splitHostPort (s : List UInt8) (portOut : Int) : Int × List UInt8 :=
  let (portOut, s) := splitPort s portOut
  (portOut, hostOf s)

/-! ## Names and their stems -/

namespace CNetAddr

theorem hasSuffix_append {stem suffix : List UInt8} (h : stem ≠ []) : HasSuffix (stem ++ suffix) suffix := by
  have hpos := List.length_pos_iff.mpr h
  refine ⟨by rw [List.length_append]; omega, ?_⟩
  rw [List.length_append, Nat.add_sub_cancel]
  exact List.drop_left

theorem stem_append (s suffix : List UInt8) : stem (s ++ suffix) suffix = s := by
  rw [stem, List.length_append, Nat.add_sub_cancel]
  exact List.take_left

/-- A name that ends as the names of I2P do is none of Tor. -/
theorem not_hasSuffix_onion (s : List UInt8) : ¬ HasSuffix (s ++ i2p) onion := by
  intro h
  have hdrop := h.2
  have hlen : (s ++ i2p).length - onion.length = s.length + 5 := by
    rw [List.length_append]
    rfl
  rw [hlen, List.drop_append, List.drop_eq_nil_of_le (Nat.le_add_right _ _), Nat.add_sub_cancel_left] at hdrop
  exact absurd hdrop (by decide)

theorem toList_ofBytes {pch vchAddr : List UInt8} {a : CNetAddr} (h : ofBytes pch vchAddr = some a) :
    a.ip.toList = pch ++ vchAddr := by
  unfold ofBytes at h
  split at h
  next => rw [← Option.some.inj h, Vector.toList_mk]
  next => cases h

theorem ofBytes_isSome_iff {pch vchAddr : List UInt8} :
    (∃ a, ofBytes pch vchAddr = some a) ↔ pch.length + vchAddr.length = 16 := by
  unfold ofBytes
  split
  next h => simpa using h
  next h => simpa using h

theorem eq_of_toList {a b : CNetAddr} (h : a.ip.toList = b.ip.toList) : a = b := by
  obtain ⟨ip⟩ := a
  obtain ⟨ip'⟩ := b
  exact congrArg CNetAddr.mk (Vector.toList_inj.mp h)

/-- An address is its prefix and the rest of it. -/
theorem ofBytes_drop {a : CNetAddr} {pch : List UInt8} (h : a.startsWith pch = true) :
    ofBytes pch (a.ip.toList.drop pch.length) = some a := by
  have hpch : a.ip.toList.take pch.length = pch := by simpa [startsWith] using h
  have hwhole : pch ++ a.ip.toList.drop pch.length = a.ip.toList := by
    conv => lhs; lhs; rw [← hpch]
    exact List.take_append_drop _ _
  have hlen : pch.length + (a.ip.toList.drop pch.length).length = 16 := by
    rw [← List.length_append, hwhole]
    exact a.ip.size_toArray
  obtain ⟨b, hb⟩ := ofBytes_isSome_iff.mpr hlen
  rw [hb, eq_of_toList ((toList_ofBytes hb).trans hwhole)]

theorem startsWith_of_ofBytes {pch vchAddr : List UInt8} {a : CNetAddr} (h : ofBytes pch vchAddr = some a) :
    a.startsWith pch = true := by
  rw [startsWith, toList_ofBytes h, List.take_left]
  exact beq_self_eq_true pch

theorem not_isI2P_of_isTor {a : CNetAddr} (h : a.isTor = true) : a.isI2P = false := by
  have htor : a.ip.toList.take 6 = pchOnionCat := eq_of_beq h
  by_contra hi2p
  have hgarlic : a.ip.toList.take 6 = pchGarliCat := eq_of_beq (Bool.eq_true_of_not_eq_false hi2p)
  rw [htor] at hgarlic
  exact absurd hgarlic (by decide)

/-- What `SetSpecial` does with a name that it accepts. -/
theorem setDecoded_eq_true_iff {a b : CNetAddr} {pch strBase32 : List UInt8} :
    a.setDecoded pch strBase32 = (true, b) ↔ ofBytes pch (decodeBase32 strBase32).1 = some b := by
  unfold setDecoded
  split
  next c hc => simp [hc]
  next hc => simp [hc]

theorem setDecoded_fst_iff {a : CNetAddr} {pch strBase32 : List UInt8} (hpch : pch.length = 6) :
    (a.setDecoded pch strBase32).1 = true ↔ (decodeBase32 strBase32).1.length = 10 := by
  have hsome := @ofBytes_isSome_iff pch (decodeBase32 strBase32).1
  have hten : pch.length + (decodeBase32 strBase32).1.length = 16 ↔ (decodeBase32 strBase32).1.length = 10 := by omega
  rw [← hten, ← hsome, setDecoded]
  cases ofBytes pch (decodeBase32 strBase32).1 <;> simp

theorem encodeBase32_ne_nil {vch : List UInt8} (h : vch ≠ []) : encodeBase32 vch ≠ [] := by
  intro hnil
  have hback := decodeBase32_encodeBase32 vch
  rw [hnil] at hback
  exact h (congrArg Prod.fst hback).symm

/-- The name of some bytes, with either suffix, gives them behind the prefix
of Tor. -/
theorem setSpecial_encode (a : CNetAddr) {vch suffix : List UInt8} (hvch : vch ≠ []) (hsuffix : suffix = onion ∨ suffix = i2p) :
    a.setSpecial (encodeBase32 vch ++ suffix) = a.setDecoded pchOnionCat (encodeBase32 vch) := by
  have hname : HasSuffix (encodeBase32 vch ++ suffix) suffix := hasSuffix_append (encodeBase32_ne_nil hvch)
  rcases hsuffix with rfl | rfl
  · rw [setSpecial, if_pos hname, stem_append]
  · rw [setSpecial, if_neg (not_hasSuffix_onion _), if_pos hname, stem_append]

end CNetAddr

open CNetAddr

/-! ## Overlay networks -/

section

variable {getnameinfo : Sockaddr → Option (List UInt8)} {a b : CNetAddr}

theorem CNetAddr.drop_ne_nil (a : CNetAddr) : a.ip.toList.drop 6 ≠ [] := by
  have hlen : a.ip.toList.length = 16 := a.ip.size_toArray
  intro h
  have := congrArg List.length h
  rw [List.length_drop, hlen] at this
  cases this

/-- Of the overlay networks, the names of Tor are read back. -/
theorem setSpecial_toStringIP_iff (h : a.isTor = true ∨ a.isI2P = true) :
    b.setSpecial (a.toStringIP getnameinfo) = (true, a) ↔ a.isI2P = false := by
  have hdecode : (decodeBase32 (encodeBase32 (a.ip.toList.drop 6))).1 = a.ip.toList.drop 6 := by
    rw [decodeBase32_encodeBase32]
  by_cases htor : a.isTor = true
  · have hname : a.toStringIP getnameinfo = encodeBase32 (a.ip.toList.drop 6) ++ onion := if_pos htor
    rw [hname, setSpecial_encode b a.drop_ne_nil (.inl rfl), setDecoded_eq_true_iff, hdecode]
    exact iff_of_true (ofBytes_drop htor) (not_isI2P_of_isTor htor)
  · have hi2p : a.isI2P = true := h.resolve_left htor
    have hname : a.toStringIP getnameinfo = encodeBase32 (a.ip.toList.drop 6) ++ i2p := by
      rw [CNetAddr.toStringIP, if_neg htor, if_pos hi2p]
    rw [hname, setSpecial_encode b a.drop_ne_nil (.inr rfl), setDecoded_eq_true_iff, hdecode, hi2p]
    exact iff_of_false (fun hset => htor (startsWith_of_ofBytes hset)) (by decide)

/-- A name that is accepted has ten bytes before its suffix, and gives an
address of the network of its suffix. -/
def KeepsNetwork (b : CNetAddr) (strName : List UInt8) : Prop :=
  (b.setSpecial strName).1 = true →
    (HasSuffix strName onion ∧ (decodeBase32 (stem strName onion)).1.length = 10 ∧ (b.setSpecial strName).2.isTor = true) ∨
    (HasSuffix strName i2p ∧ (decodeBase32 (stem strName i2p)).1.length = 10 ∧ (b.setSpecial strName).2.isI2P = true)

theorem not_onion_of_hasSuffix_i2p {strName : List UInt8} (h : HasSuffix strName i2p) : ¬ HasSuffix strName onion := by
  have hname : strName = stem strName i2p ++ i2p := by
    conv => rhs; rhs; rw [← h.2]
    exact (List.take_append_drop _ _).symm
  rw [hname]
  exact not_hasSuffix_onion _

theorem isTor_of_setDecoded {strBase32 : List UInt8} (h : (b.setDecoded pchOnionCat strBase32).1 = true) :
    (b.setDecoded pchOnionCat strBase32).2.isTor = true := by
  have hset : b.setDecoded pchOnionCat strBase32 = (true, (b.setDecoded pchOnionCat strBase32).2) := Prod.ext h rfl
  exact startsWith_of_ofBytes (setDecoded_eq_true_iff.mp hset)

theorem keepsNetwork_iff (b : CNetAddr) (strName : List UInt8) :
    KeepsNetwork b strName ↔ ¬ (HasSuffix strName i2p ∧ (decodeBase32 (stem strName i2p)).1.length = 10) := by
  by_cases honion : HasSuffix strName onion
  · have hset : b.setSpecial strName = b.setDecoded pchOnionCat (stem strName onion) := if_pos honion
    refine iff_of_true (fun haccept => .inl ⟨honion, ?_, ?_⟩) fun h => not_onion_of_hasSuffix_i2p h.1 honion
    · rw [hset] at haccept
      exact (setDecoded_fst_iff rfl).mp haccept
    · rw [hset] at haccept ⊢
      exact isTor_of_setDecoded haccept
  · by_cases hi2p : HasSuffix strName i2p
    · have hset : b.setSpecial strName = b.setDecoded pchOnionCat (stem strName i2p) := by
        rw [setSpecial, if_neg honion, if_pos hi2p]
      unfold KeepsNetwork
      rw [hset, setDecoded_fst_iff rfl]
      constructor
      · intro hkeeps hten
        rcases hkeeps hten.2 with ⟨h, -⟩ | ⟨-, -, h⟩
        · exact honion h
        · rw [not_isI2P_of_isTor (isTor_of_setDecoded ((setDecoded_fst_iff rfl).mpr hten.2))] at h
          cases h
      · intro hnot hten
        exact absurd ⟨hi2p, hten⟩ hnot
    · have hset : b.setSpecial strName = (false, b) := by rw [setSpecial, if_neg honion, if_neg hi2p]
      refine iff_of_true (fun haccept => ?_) fun h => hi2p h.1
      rw [hset] at haccept
      cases haccept

end

/-! ## Hosts and ports -/

theorem findLastOf_eq_none {c : UInt8} {s : List UInt8} (h : c ∉ s) : findLastOf c s = none := by
  induction s with
  | nil => rfl
  | cons x s ih =>
    have hx : x ≠ c := fun hx => h (hx ▸ List.mem_cons_self)
    rw [findLastOf, ih fun hc => h (List.mem_cons_of_mem _ hc)]
    exact if_neg hx

theorem findLastOf_append {c : UInt8} {t : List UInt8} (h : c ∉ t) (s : List UInt8) :
    findLastOf c (s ++ c :: t) = some s.length := by
  induction s with
  | nil =>
    rw [List.nil_append, findLastOf, findLastOf_eq_none h]
    exact if_pos rfl
  | cons x s ih => rw [List.cons_append, findLastOf, ih, List.length_cons]

/-- Neither a colon nor a bracket. -/
def Plain (c : UInt8) : Prop := c ≠ 58 ∧ c ≠ 91

instance (c : UInt8) : Decidable (Plain c) := inferInstanceAs (Decidable (_ ∧ _))

theorem plain_of_isDigit {c : UInt8} (h : isDigit c = true) : Plain c := by
  constructor
  · rintro rfl
    exact absurd h (by decide)
  · rintro rfl
    exact absurd h (by decide)

theorem plain_encodeBase32 (vch : List UInt8) : ∀ c ∈ encodeBase32 vch, Plain c := by
  obtain ⟨ds, n, hspells, htext⟩ := BaseText.Base.encodeText_spells lawful_base32 vch
  have hletter : ∀ d < 2 ^ 5, Plain (base32.letter d) := by decide +kernel
  intro c hc
  rw [encodeBase32, htext] at hc
  rcases List.mem_append.mp hc with hc | hc
  · obtain ⟨d, hd, rfl⟩ := List.mem_map.mp hc
    exact hletter d (hspells.bound d hd)
  · rw [List.eq_of_mem_replicate hc]
    decide

/-- The host stands alone in front of the colon, or in brackets. -/
def Delimited (host : List UInt8) : Prop :=
  (∀ c ∈ host, Plain c) ∨ ∃ inner, host = 91 :: (inner ++ [93])

/-- A port behind a host is split off. -/
theorem splitPort_append {host : List UInt8} (hhost : Delimited host) {n : Nat} (hn : 0 < n ∧ n < 0x10000) (portOut : Int) :
    splitPort (host ++ 58 :: print n) portOut = ((n : Int), host) := by
  have hdigits : ∀ c ∈ print n, isDigit c = true := Decimal.print_isDigit n
  have hcolon : findLastOf 58 (host ++ 58 :: print n) = some host.length :=
    findLastOf_append (fun h => (plain_of_isDigit (hdigits 58 h)).1 rfl) host
  have hport : ((host ++ 58 :: print n).drop (host.length + 1)).takeWhile (· ≠ 0) = print n := by
    have hdrop : (host ++ 58 :: print n).drop (host.length + 1) = print n := by
      rw [List.drop_append, List.drop_eq_nil_of_le (Nat.le_succ _), Nat.add_sub_cancel_left]
      rfl
    rw [hdrop]
    refine List.takeWhile_eq_self_iff.mpr fun c hc => ?_
    have := hdigits c hc
    simp only [decide_eq_true_eq]
    rintro rfl
    exact absurd this (by decide)
  have hread : strtoll (print n) = ((n : Int), []) := by
    have hend : ∀ c ∈ ([] : List UInt8).head?, isDigit c = false := nofun
    have := Decimal.strtoll_print (n := n) (by omega) hend
    rwa [List.append_nil] at this
  have hint : toInt32 n = n := by
    unfold toInt32
    omega
  have hsplit : host.length = 0 ∨
      ((host ++ 58 :: print n).getD 0 0 = 91 ∧ (host ++ 58 :: print n).getD (host.length - 1) 0 = 93) ∨
      (!(findLastOf 58 (if host.length = 0 then host ++ 58 :: print n else (host ++ 58 :: print n).take host.length)).isSome) =
        true := by
    rcases hhost with hplain | ⟨inner, rfl⟩
    · by_cases hzero : host.length = 0
      · exact .inl hzero
      · refine .inr (.inr ?_)
        rw [if_neg hzero, List.take_left, findLastOf_eq_none fun h => (hplain 58 h).1 rfl]
        rfl
    · refine .inr (.inl ⟨rfl, ?_⟩)
      simp [List.getD_eq_getElem?_getD]
  rw [splitPort, hcolon]
  simp only [hport, hread, hint, if_pos hsplit]
  rw [if_pos ⟨trivial, by omega⟩, if_pos ⟨by omega, by omega⟩, List.take_left]

theorem hostOf_plain {host : List UInt8} (h : ∀ c ∈ host, Plain c) : hostOf host = host := by
  refine if_neg fun hbracket => ?_
  cases host with
  | nil => exact absurd hbracket.1 (by decide)
  | cons c host => exact (h c List.mem_cons_self).2 hbracket.2.1

theorem hostOf_brackets (inner : List UInt8) : hostOf (91 :: (inner ++ [93])) = inner := by
  unfold hostOf
  simp [List.getD_eq_getElem?_getD]

/-- What is known of the numeric form of a host: of IPv4 addresses it has only
digits and dots. -/
def NumericHost (getnameinfo : Sockaddr → Option (List UInt8)) : Prop :=
  ∀ addr port name, getnameinfo (.inet addr port) = some name → ∀ c ∈ name, isDigit c = true ∨ c = 46

section

variable {getnameinfo : Sockaddr → Option (List UInt8)}

theorem plain_toStringIP (hnumeric : NumericHost getnameinfo) {a : CNetAddr}
    (h : a.isIPv4 = true ∨ a.isTor = true ∨ a.isI2P = true) : ∀ c ∈ a.toStringIP getnameinfo, Plain c := by
  have hname : ∀ suffix, (∀ c ∈ suffix, Plain c) → ∀ c ∈ encodeBase32 (a.ip.toList.drop 6) ++ suffix, Plain c :=
    fun suffix hsuffix c hc => (List.mem_append.mp hc).elim (plain_encodeBase32 _ c) (hsuffix c)
  have hdot : ∀ c, isDigit c = true ∨ c = 46 → Plain c := fun c hc =>
    hc.elim plain_of_isDigit fun hc => hc ▸ (by decide)
  unfold CNetAddr.toStringIP
  by_cases htor : a.isTor = true
  · rw [if_pos htor]
    exact hname onion (by decide +kernel)
  · by_cases hi2p : a.isI2P = true
    · rw [if_neg htor, if_pos hi2p]
      exact hname i2p (by decide +kernel)
    · have hipv4 : a.isIPv4 = true := h.resolve_right fun h => h.elim htor hi2p
      have hsock : (CService.mk a 0).getSockAddr = some (.inet (a.ip.toList.drop 12) 0) := if_pos hipv4
      rw [if_neg htor, if_neg hi2p, hsock, Option.bind_some]
      cases hget : getnameinfo (.inet (a.ip.toList.drop 12) 0) with
      | some name => exact fun c hc => hdot c (hnumeric _ _ _ hget c hc)
      | none =>
        simp only [if_pos hipv4]
        intro c hc
        refine hdot c ?_
        simp only [List.mem_append] at hc
        rcases hc with (((((hc | hc) | hc) | hc) | hc) | hc) | hc
        · exact .inl (Decimal.print_isDigit _ c hc)
        · exact .inr (List.mem_singleton.mp hc)
        · exact .inl (Decimal.print_isDigit _ c hc)
        · exact .inr (List.mem_singleton.mp hc)
        · exact .inl (Decimal.print_isDigit _ c hc)
        · exact .inr (List.mem_singleton.mp hc)
        · exact .inl (Decimal.print_isDigit _ c hc)

/-- **The port and the host of a service** are found in its text. -/
theorem splitHostPort_toStringIPPort (hnumeric : NumericHost getnameinfo) (s : CService) (hport : s.port ≠ 0) (portOut : Int) :
    splitHostPort (s.toStringIPPort getnameinfo) portOut = ((s.port.toNat : Int), s.addr.toStringIP getnameinfo) := by
  have hn : 0 < s.port.toNat ∧ s.port.toNat < 0x10000 :=
    ⟨Nat.pos_of_ne_zero fun h => hport (UInt16.toNat_inj.mp h), s.port.toNat_lt⟩
  unfold CService.toStringIPPort
  split
  next hplain =>
    have hchars := plain_toStringIP (a := s.addr) hnumeric (by simpa [or_assoc] using hplain)
    have hcolon : s.addr.toStringIP getnameinfo ++ chars ":" ++ print s.port.toNat =
        s.addr.toStringIP getnameinfo ++ 58 :: print s.port.toNat := by
      rw [List.append_assoc]
      rfl
    rw [hcolon, splitHostPort, splitPort_append (.inl hchars) hn]
    exact Prod.ext rfl (hostOf_plain hchars)
  next =>
    have hcolon : chars "[" ++ s.addr.toStringIP getnameinfo ++ chars "]:" ++ print s.port.toNat =
        91 :: (s.addr.toStringIP getnameinfo ++ [93]) ++ 58 :: print s.port.toNat := by
      have hopen : chars "[" = [91] := by decide
      have hclose : chars "]:" = [93, 58] := by decide
      simp [hopen, hclose]
    rw [hcolon, splitHostPort, splitPort_append (.inr ⟨_, rfl⟩) hn]
    exact Prod.ext rfl (hostOf_brackets _)

/-- **Addresses as text**: of the overlay networks exactly the addresses of
Tor are read back; exactly the names of I2P that are accepted give an address
of another network than their suffix names; and every service is split into
its host and its port. -/
theorem addressText_iff (hnumeric : NumericHost getnameinfo) :
    (∀ a b : CNetAddr, a.isTor = true ∨ a.isI2P = true →
        (b.setSpecial (a.toStringIP getnameinfo) = (true, a) ↔ a.isI2P = false)) ∧
      (∀ (b : CNetAddr) (strName : List UInt8), KeepsNetwork b strName ↔
        ¬ (HasSuffix strName i2p ∧ (decodeBase32 (stem strName i2p)).1.length = 10)) ∧
      ∀ (s : CService) (portOut : Int), s.port ≠ 0 →
        splitHostPort (s.toStringIPPort getnameinfo) portOut = ((s.port.toNat : Int), s.addr.toStringIP getnameinfo) :=
  ⟨fun _ _ h => setSpecial_toStringIP_iff h, keepsNetwork_iff,
    fun s portOut hport => splitHostPort_toStringIPPort hnumeric s hport portOut⟩

end

/-! ## Samples -/

namespace Sample

/-- The numeric form of IPv4 addresses. -/
def dotted : Sockaddr → Option (List UInt8)
  | .inet [a, b, c, d] _ =>
    some (print a.toNat ++ 46 :: print b.toNat ++ 46 :: print c.toNat ++ 46 :: print d.toNat)
  | _ => none

theorem numericHost_dotted : NumericHost dotted := by
  intro addr port name h x hx
  unfold dotted at h
  split at h
  next =>
    obtain rfl := Option.some.inj h
    simp only [List.mem_append, List.mem_cons] at hx
    have hdigit := Decimal.print_isDigit
    rcases hx with ((hx | hx | hx) | hx | hx) | hx | hx
    · exact .inl (hdigit _ x hx)
    · exact .inr hx
    · exact .inl (hdigit _ x hx)
    · exact .inr hx
    · exact .inl (hdigit _ x hx)
    · exact .inr hx
    · exact .inl (hdigit _ x hx)
  next => cases h

def torAddress : CNetAddr := ⟨#v[0xFD, 0x87, 0xD8, 0x7E, 0xEB, 0x43, 1, 2, 3, 4, 5, 6, 7, 8, 9, 10]⟩
def i2pAddress : CNetAddr := ⟨#v[0xFD, 0x60, 0xDB, 0x4D, 0xDD, 0xB5, 1, 2, 3, 4, 5, 6, 7, 8, 9, 10]⟩
def ipv4Address : CNetAddr := ⟨#v[0, 0, 0, 0, 0, 0, 0, 0, 0, 0, 0xff, 0xff, 1, 2, 3, 4]⟩

end Sample

theorem addressText_sample :
    Sample.torAddress.setSpecial (Sample.torAddress.toStringIP Sample.dotted) = (true, Sample.torAddress) ∧
      splitHostPort ((CService.mk Sample.ipv4Address 9134).toStringIPPort Sample.dotted) 0 =
        (9134, Sample.ipv4Address.toStringIP Sample.dotted) :=
  have h := addressText_iff Sample.numericHost_dotted
  ⟨(h.1 Sample.torAddress Sample.torAddress (.inl (by decide))).mpr (by decide), h.2.2 _ 0 (by decide)⟩

/-- The name of an address of I2P gives an address of Tor. -/
theorem not_setSpecial_i2p :
    ¬ ∀ a b : CNetAddr, a.isTor = true ∨ a.isI2P = true → b.setSpecial (a.toStringIP Sample.dotted) = (true, a) := by
  intro h
  exact absurd (h Sample.i2pAddress Sample.i2pAddress (.inr (by decide))) (by decide +kernel)

end Pinkcoin
