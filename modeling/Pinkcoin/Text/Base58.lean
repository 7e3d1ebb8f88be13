/-
Base58 is a bijection between byte strings and texts of its letters; addresses
and secret keys, which carry a checksum, are read back from their text.
-/
import Mathlib.Data.List.DropRight
import Mathlib.Data.List.GetD
import Pinkcoin.Lib.Numerals
import Pinkcoin.Smsg.Address
import Pinkcoin.Solver

namespace Pinkcoin

open Numerals (numeral zeros value convert)

/-! ## Letters -/

/-- The letter of a digit. -/
def base58Letter (d : Nat) : Char := pszBase58.getD d '1'

theorem idxOf?_base58Letter : ∀ d < 58, pszBase58.idxOf? (base58Letter d) = some d := by
  decide

theorem base58Letter_of_idxOf? {c : Char} {d : Nat} (h : pszBase58.idxOf? c = some d) : d < 58 ∧ base58Letter d = c := by
  obtain ⟨hlt, hc, -⟩ := List.idxOf?_eq_some_iff.mp h
  exact ⟨hlt, (List.getD_eq_getElem _ _ hlt).trans hc⟩

theorem base58Letter_ne : ∀ d < 58, isspace (base58Letter d) = false ∧ base58Letter d ≠ '\x00' ∧
    (base58Letter d = '1' ↔ d = 0) := by
  decide

theorem idxOf?_blank {c : Char} (h : isspace c = true) : pszBase58.idxOf? c = none := by
  have hc : c ∈ [' ', '\t', '\n', '\x0b', '\x0c', '\r'] := List.contains_iff_mem.mp h
  simp only [List.mem_cons, List.not_mem_nil, or_false] at hc
  rcases hc with rfl | rfl | rfl | rfl | rfl | rfl <;> rfl

/-- The text of some digits. -/
def base58Text (ds : List Nat) : List Char := ds.map base58Letter

/-! ## Bytes to text -/

theorem base58Digits_eq {fuel n : Nat} (h : n < 58 ^ fuel) : base58Digits fuel n = base58Text (Nat.digits 58 n) := by
  induction fuel generalizing n with
  | zero =>
    have hn : n = 0 := by
      rw [Nat.pow_zero] at h
      omega
    rw [hn, Nat.digits_zero]
    rfl
  | succ fuel ih =>
    unfold base58Digits
    split
    next hn =>
      rw [hn, Nat.digits_zero]
      rfl
    next hn =>
      have hdiv : n / 58 < 58 ^ fuel := by
        rw [Nat.pow_succ] at h
        omega
      rw [ih hdiv, Nat.digits_def' (by decide) (Nat.pos_of_ne_zero hn)]
      rfl

theorem bignumBytes_eq {fuel n : Nat} (h : n < 256 ^ fuel) : bignumBytes fuel n = (Nat.digits 256 n).map UInt8.ofNat := by
  induction fuel generalizing n with
  | zero =>
    have hn : n = 0 := by
      rw [Nat.pow_zero] at h
      omega
    rw [hn, Nat.digits_zero]
    rfl
  | succ fuel ih =>
    unfold bignumBytes
    split
    next hn =>
      rw [hn, Nat.digits_zero]
      rfl
    next hn =>
      have hdiv : n / 256 < 256 ^ fuel := by
        rw [Nat.pow_succ] at h
        omega
      rw [ih hdiv, Nat.digits_def' (by decide) (Nat.pos_of_ne_zero hn)]
      rfl

theorem beNat_eq_value (bytes : List UInt8) : beNat bytes = value 256 (bytes.map UInt8.toNat) := by
  have hle : ∀ l : List UInt8, CScript.leNat l = Nat.ofDigits 256 (l.map UInt8.toNat) := by
    intro l
    induction l with
    | nil => rfl
    | cons b l ih =>
      rw [List.map_cons, Nat.ofDigits_cons, ← ih]
      rfl
  rw [beNat, hle, value, List.map_reverse]

theorem bytes_lt {bytes : List UInt8} : ∀ d ∈ bytes.map UInt8.toNat, d < 256 := by
  intro d hd
  obtain ⟨b, -, rfl⟩ := List.mem_map.mp hd
  exact b.toNat_lt

theorem zeros_bytes (bytes : List UInt8) : (bytes.takeWhile (· = 0)).length = zeros (bytes.map UInt8.toNat) := by
  rw [zeros, List.takeWhile_map, List.length_map]
  refine congrArg (fun p => (bytes.takeWhile p).length) (funext fun b => ?_)
  simp [← UInt8.toNat_inj]

/-- **What is written**: the letters of the bytes, to the base 58. -/
theorem encodeBase58_eq (bytes : List UInt8) : encodeBase58 bytes = base58Text (convert 256 58 (bytes.map UInt8.toNat)) := by
  have hlt : beNat bytes < 58 ^ (2 * bytes.length) := by
    have hbytes : ∀ d ∈ bytes.map UInt8.toNat, d < 256 := bytes_lt
    have h := Numerals.value_lt (by decide) hbytes
    rw [← beNat_eq_value, List.length_map] at h
    calc beNat bytes < 256 ^ bytes.length := h
      _ ≤ (58 ^ 2) ^ bytes.length := Nat.pow_le_pow_left (by decide) _
      _ = 58 ^ (2 * bytes.length) := (Nat.pow_mul 58 2 _).symm
  rw [encodeBase58, base58Digits_eq hlt, List.reverse_append, beNat_eq_value, convert, numeral, ← zeros_bytes]
  simp only [base58Text, List.map_append, List.map_replicate, List.map_reverse, List.map_const', List.reverse_replicate]
  rfl

/-! ## Text to bytes -/

/-- The bytes of some digits to the base 58. -/
def base58Bytes (ds : List Nat) : List UInt8 := (convert 58 256 ds).map UInt8.ofNat

theorem map_toNat_base58Bytes (ds : List Nat) : (base58Bytes ds).map UInt8.toNat = convert 58 256 ds := by
  rw [base58Bytes, List.map_map]
  refine (List.map_congr_left fun d hd => ?_).trans (List.map_id _)
  have := Numerals.convert_lt (by decide) hd
  simpa using this

theorem encodeBase58_base58Bytes {ds : List Nat} (h : ∀ d ∈ ds, d < 58) : encodeBase58 (base58Bytes ds) = base58Text ds := by
  rw [encodeBase58_eq, map_toNat_base58Bytes, Numerals.convert_convert (by decide) h]

theorem base58Bytes_convert (bytes : List UInt8) : base58Bytes (convert 256 58 (bytes.map UInt8.toNat)) = bytes := by
  rw [base58Bytes, Numerals.convert_convert (by decide) bytes_lt, List.map_map]
  exact (List.map_congr_left fun b _ => UInt8.ofNat_toNat).trans (List.map_id bytes)

/-- The digits are read up to blanks that end the text. -/
theorem base58Value_text {ds : List Nat} (h : ∀ d ∈ ds, d < 58) {blanks : List Char} (hblanks : ∀ c ∈ blanks, isspace c = true)
    (bn : Nat) : base58Value (base58Text ds ++ blanks) bn = some (ds.foldl (fun n d => n * 58 + d) bn) := by
  induction ds generalizing bn with
  | nil =>
    cases blanks with
    | nil => rfl
    | cons c blanks =>
      have hall : (c :: blanks).all isspace = true := List.all_eq_true.mpr hblanks
      simp only [base58Text, List.map_nil, List.nil_append, base58Value, idxOf?_blank (hblanks c List.mem_cons_self), hall]
      rfl
  | cons d ds ih =>
    have hd := idxOf?_base58Letter d (h d List.mem_cons_self)
    have hrest := ih (fun d hd => h d (List.mem_cons_of_mem _ hd)) (bn * 58 + d)
    simp only [base58Text, List.map_cons, List.cons_append, base58Value, hd]
    exact hrest

/-- What is read consists of letters and blanks that end it. -/
theorem base58Value_some {p : List Char} {bn n : Nat} (h : base58Value p bn = some n) :
    ∃ ds blanks, p = base58Text ds ++ blanks ∧ (∀ d ∈ ds, d < 58) ∧ ∀ c ∈ blanks, isspace c = true := by
  induction p generalizing bn with
  | nil => exact ⟨[], [], rfl, nofun, nofun⟩
  | cons c p ih =>
    unfold base58Value at h
    split at h
    next d hd =>
      obtain ⟨ds, blanks, rfl, hds, hblanks⟩ := ih h
      obtain ⟨hlt, rfl⟩ := base58Letter_of_idxOf? hd
      exact ⟨d :: ds, blanks, rfl, List.forall_mem_cons.mpr ⟨hlt, hds⟩, hblanks⟩
    next =>
      split at h
      next hall => exact ⟨[], c :: p, rfl, nofun, List.all_eq_true.mp hall⟩
      next => cases h

theorem zeros_text {ds : List Nat} (h : ∀ d ∈ ds, d < 58) {blanks : List Char} (hblanks : ∀ c ∈ blanks, isspace c = true) :
    ((base58Text ds ++ blanks).takeWhile (· = '1')).length = zeros ds := by
  induction ds with
  | nil =>
    cases blanks with
    | nil => rfl
    | cons c blanks =>
      have hc : c ≠ '1' := by
        rintro rfl
        exact absurd (hblanks _ List.mem_cons_self) (by decide)
      simp [base58Text, zeros, hc]
  | cons d ds ih =>
    have hone := (base58Letter_ne d (h d List.mem_cons_self)).2.2
    have hrest := ih fun d hd => h d (List.mem_cons_of_mem _ hd)
    by_cases hd : d = 0
    · have hletter := hone.mpr hd
      simp only [base58Text, zeros] at hrest
      simp [base58Text, zeros, hd, show base58Letter 0 = '1' from rfl, hrest]
    · have hletter : base58Letter d ≠ '1' := fun hl => hd (hone.mp hl)
      simp [base58Text, zeros, hd, hletter]

/-- The part of a string that a C string has. -/
def cstr (s : List Char) : List Char := s.takeWhile (· ≠ '\x00')

/-- A string without the white space around it. -/
def strip (s : List Char) : List Char := (s.dropWhile isspace).rdropWhile isspace

theorem dropWhile_base58Text {ds : List Nat} (h : ∀ d ∈ ds, d < 58) (after : List Char) (hne : ds ≠ []) :
    (base58Text ds ++ after).dropWhile isspace = base58Text ds ++ after := by
  cases ds with
  | nil => exact absurd rfl hne
  | cons d ds =>
    have hd := (base58Letter_ne d (h d List.mem_cons_self)).1
    simp [base58Text, hd]

theorem strip_text {ds : List Nat} (h : ∀ d ∈ ds, d < 58) {before after : List Char}
    (hbefore : ∀ c ∈ before, isspace c = true) (hafter : ∀ c ∈ after, isspace c = true) :
    strip (before ++ base58Text ds ++ after) = base58Text ds := by
  rw [strip, List.append_assoc, List.dropWhile_append_of_pos hbefore]
  by_cases hne : ds = []
  · have hnil : after.dropWhile isspace = [] := by simpa using hafter
    simp [hne, base58Text, hnil]
  · have hreverse : ∀ d ∈ ds.reverse, d < 58 := fun d hd => h d (List.mem_reverse.mp hd)
    have hdrop := dropWhile_base58Text hreverse [] (by simpa using hne)
    rw [List.append_nil] at hdrop
    rw [dropWhile_base58Text h after hne, List.rdropWhile, List.reverse_append,
      List.dropWhile_append_of_pos fun c hc => hafter c (List.mem_reverse.mp hc), base58Text, ← List.map_reverse]
    exact (congrArg List.reverse hdrop).trans (by rw [base58Text, ← List.map_reverse, List.reverse_reverse])

/-- What is made of the digits of a text. -/
theorem decodeBase58_text {ds : List Nat} (h : ∀ d ∈ ds, d < 58) {blanks : List Char} (hblanks : ∀ c ∈ blanks, isspace c = true) :
    base58Value (base58Text ds ++ blanks) 0 = some (value 58 ds) ∧
      ((base58Text ds ++ blanks).takeWhile (· = '1')).map (fun _ => (0 : UInt8)) ++
        (bignumBytes (base58Text ds ++ blanks).length (value 58 ds)).reverse = base58Bytes ds := by
  have hvalue := base58Value_text h hblanks 0
  rw [Numerals.foldl_eq, Nat.zero_mul, Nat.zero_add] at hvalue
  have hlt : value 58 ds < 256 ^ (base58Text ds ++ blanks).length := by
    calc value 58 ds < 58 ^ ds.length := Numerals.value_lt (by decide) h
      _ ≤ 256 ^ ds.length := Nat.pow_le_pow_left (by decide) _
      _ ≤ 256 ^ (base58Text ds ++ blanks).length := Nat.pow_le_pow_right (by decide) (by simp [base58Text])
  refine ⟨hvalue, ?_⟩
  rw [bignumBytes_eq hlt, List.map_const', zeros_text h hblanks, base58Bytes, convert, numeral, List.map_append,
    List.map_replicate, List.map_reverse]
  rfl

/-- **What is accepted**: letters, with blanks around them. -/
theorem decodeBase58_eq_some_iff {s : List Char} {vch : List UInt8} :
    decodeBase58 s = some vch ↔ ∃ before ds after, cstr s = before ++ base58Text ds ++ after ∧ (∀ d ∈ ds, d < 58) ∧
      (∀ c ∈ before, isspace c = true) ∧ (∀ c ∈ after, isspace c = true) ∧ vch = base58Bytes ds := by
  have hdef : decodeBase58 s = (base58Value ((cstr s).dropWhile isspace) 0).bind fun bn =>
      some ((((cstr s).dropWhile isspace).takeWhile (· = '1')).map (fun _ => (0 : UInt8)) ++
        (bignumBytes ((cstr s).dropWhile isspace).length bn).reverse) := rfl
  rw [hdef]
  constructor
  · intro h
    obtain ⟨bn, hbn, hvch⟩ := Option.bind_eq_some_iff.mp h
    obtain ⟨ds, after, htext, hds, hafter⟩ := base58Value_some hbn
    obtain ⟨hvalue, hbytes⟩ := decodeBase58_text hds hafter
    rw [htext, hvalue] at hbn
    rw [htext, ← Option.some.inj hbn, hbytes] at hvch
    refine ⟨(cstr s).takeWhile isspace, ds, after, ?_, hds, fun c hc => List.mem_takeWhile_imp hc, hafter,
      (Option.some.inj hvch).symm⟩
    rw [List.append_assoc, ← htext]
    exact List.takeWhile_append_dropWhile.symm
  · intro ⟨before, ds, after, hs, hds, hbefore, hafter, hvch⟩
    obtain ⟨blanks, hblanks, hdrop⟩ : ∃ blanks : List Char, (∀ c ∈ blanks, isspace c = true) ∧
        (cstr s).dropWhile isspace = base58Text ds ++ blanks := by
      rw [hs, List.append_assoc, List.dropWhile_append_of_pos hbefore]
      by_cases hne : ds = []
      · exact ⟨[], nofun, by simpa [hne, base58Text] using hafter⟩
      · exact ⟨after, hafter, dropWhile_base58Text hds after hne⟩
    obtain ⟨hvalue, hbytes⟩ := decodeBase58_text hds hblanks
    rw [hdrop, hvalue, hvch, Option.bind_some, hbytes]

theorem cstr_base58Text {ds : List Nat} (h : ∀ d ∈ ds, d < 58) : cstr (base58Text ds) = base58Text ds := by
  refine List.takeWhile_eq_self_iff.mpr fun c hc => ?_
  obtain ⟨d, hd, rfl⟩ := List.mem_map.mp hc
  simpa using (base58Letter_ne d (h d hd)).2.1

theorem decodeBase58_encodeBase58 (bytes : List UInt8) : decodeBase58 (encodeBase58 bytes) = some bytes := by
  have hlt : ∀ d ∈ convert 256 58 (bytes.map UInt8.toNat), d < 58 := fun d hd => Numerals.convert_lt (by decide) hd
  rw [encodeBase58_eq]
  refine decodeBase58_eq_some_iff.mpr ⟨[], _, [], ?_, hlt, nofun, nofun, (base58Bytes_convert bytes).symm⟩
  rw [cstr_base58Text hlt, List.nil_append, List.append_nil]

theorem encodeBase58_of_decodeBase58 {s : List Char} {vch : List UInt8} (h : decodeBase58 s = some vch) :
    encodeBase58 vch = strip (cstr s) := by
  obtain ⟨before, ds, after, hs, hds, hbefore, hafter, rfl⟩ := decodeBase58_eq_some_iff.mp h
  rw [hs, strip_text hds hbefore hafter, encodeBase58_base58Bytes hds]

/-! ## Addresses and secrets -/

/-- `Set`, of a destination. -/
def CBitcoinAddress.set (fTestNet : Bool) : CTxDestination → CBitcoinAddress
  | .keyID id => .ofKeyID fTestNet id
  | .scriptID id => ⟨if fTestNet then SCRIPT_ADDRESS_TEST else SCRIPT_ADDRESS, id.toList⟩

/-- `Get`. -/
def CBitcoinAddress.get (fTestNet : Bool) (addr : CBitcoinAddress) : Option CTxDestination :=
  if h : addr.isValid fTestNet then
    if addr.nVersion = PUBKEY_ADDRESS ∨ addr.nVersion = PUBKEY_ADDRESS_TEST then
      some (.keyID ⟨addr.vchData, length_of_isValid h⟩)
    else some (.scriptID ⟨addr.vchData, length_of_isValid h⟩)
  else none

/-- `CBitcoinSecret`, the other record of a version byte and data. -/
abbrev CBitcoinSecret := CBitcoinAddress

namespace CBitcoinSecret

/-- `SetSecret`. -/
def setSecret (fTestNet : Bool) (vchSecret : Bytes 32) (fCompressed : Bool) : CBitcoinSecret :=
  ⟨128 + (if fTestNet then CBitcoinAddress.PUBKEY_ADDRESS_TEST else CBitcoinAddress.PUBKEY_ADDRESS),
    vchSecret.toList ++ if fCompressed then [1] else []⟩

/-- `GetSecret`. -/
def getSecret (secret : CBitcoinSecret) : List UInt8 × Bool := (secret.vchData.take 32, secret.vchData.length == 33)

/-- `IsValid`. -/
def isValid (fTestNet : Bool) (secret : CBitcoinSecret) : Bool :=
  secret.nVersion == 128 + (if fTestNet then CBitcoinAddress.PUBKEY_ADDRESS_TEST else CBitcoinAddress.PUBKEY_ADDRESS) &&
    (secret.vchData.length == 32 || (secret.vchData.length == 33 && secret.vchData.getD 32 0 == 1))

/-- `SetString`: what it returns, and the secret after it. -/
def setString (hash : List UInt8 → Bytes 32) (fTestNet : Bool) (s : List Char) : Bool × CBitcoinSecret :=
  match CBitcoinAddress.setString hash s with
  | some secret => (CBitcoinSecret.isValid fTestNet secret, secret)
  | none => (false, ⟨0, []⟩)

end CBitcoinSecret

section

variable {hash : List UInt8 → Bytes 32} {fTestNet : Bool}

/-- The data of an address with its checksum. -/
def withChecksum (hash : List UInt8 → Bytes 32) (addr : CBitcoinAddress) : List UInt8 :=
  addr.nVersion :: addr.vchData ++ (hash (addr.nVersion :: addr.vchData)).toList.take 4

/-- **A string is accepted** exactly if it encodes data with its checksum. -/
theorem setString_eq_some_iff {s : List Char} {addr : CBitcoinAddress} :
    CBitcoinAddress.setString hash s = some addr ↔ decodeBase58 s = some (withChecksum hash addr) := by
  have hsum : ∀ data, ((hash data).toList.take 4).length = 4 := fun data => by
    rw [List.length_take, List.Vector.toList_length]
    rfl
  unfold CBitcoinAddress.setString
  constructor
  · intro h
    obtain ⟨vch, hvch, h⟩ := Option.bind_eq_some_iff.mp h
    split at h
    next => cases h
    next =>
      dsimp only at h
      split at h
      next => cases h
      next hsame =>
        split at h
        next => cases h
        next nVersion vchData hdata =>
          obtain rfl := Option.some.inj h
          rw [hdata, ne_eq, not_not] at hsame
          rw [hvch, withChecksum, hsame, ← hdata, List.take_append_drop]
  · intro h
    have hlen : (withChecksum hash addr).length - 4 = (addr.nVersion :: addr.vchData).length := by
      rw [withChecksum, List.length_append, hsum, Nat.add_sub_cancel]
    have htake : (withChecksum hash addr).take ((withChecksum hash addr).length - 4) = addr.nVersion :: addr.vchData := by
      rw [hlen, withChecksum, List.take_left]
    have hdrop : (withChecksum hash addr).drop ((withChecksum hash addr).length - 4) =
        (hash (addr.nVersion :: addr.vchData)).toList.take 4 := by
      rw [hlen, withChecksum, List.drop_left]
    have hlarge : ¬ (withChecksum hash addr).length < 4 := by
      rw [withChecksum, List.length_append, hsum]
      omega
    show (decodeBase58 s).bind _ = _
    rw [h, Option.bind_some, if_neg hlarge, htake, hdrop, if_neg (not_not_intro rfl)]

theorem setString_toString (addr : CBitcoinAddress) : CBitcoinAddress.setString hash (addr.toString hash) = some addr :=
  setString_eq_some_iff.mpr (decodeBase58_encodeBase58 _)

theorem get_set (dest : CTxDestination) : (CBitcoinAddress.set fTestNet dest).get fTestNet = some dest := by
  cases dest with
  | keyID id =>
    have hvalid := CBitcoinAddress.isValid_ofKeyID fTestNet id
    have hversion : (CBitcoinAddress.ofKeyID fTestNet id).nVersion = CBitcoinAddress.PUBKEY_ADDRESS ∨
        (CBitcoinAddress.ofKeyID fTestNet id).nVersion = CBitcoinAddress.PUBKEY_ADDRESS_TEST := by
      cases fTestNet with
      | true => exact .inr rfl
      | false => exact .inl rfl
    exact (dif_pos hvalid).trans (if_pos hversion)
  | scriptID id =>
    have hvalid : (CBitcoinAddress.set fTestNet (.scriptID id)).isValid fTestNet := by
      refine ⟨?_, id.toList_length⟩
      cases fTestNet with
      | true => exact .inr rfl
      | false => exact .inr rfl
    have hversion : ¬ ((CBitcoinAddress.set fTestNet (.scriptID id)).nVersion = CBitcoinAddress.PUBKEY_ADDRESS ∨
        (CBitcoinAddress.set fTestNet (.scriptID id)).nVersion = CBitcoinAddress.PUBKEY_ADDRESS_TEST) := by
      have hneither : ∀ nVersion ∈ [CBitcoinAddress.SCRIPT_ADDRESS, CBitcoinAddress.SCRIPT_ADDRESS_TEST],
          ¬ (nVersion = CBitcoinAddress.PUBKEY_ADDRESS ∨ nVersion = CBitcoinAddress.PUBKEY_ADDRESS_TEST) := by decide +kernel
      cases fTestNet with
      | true => exact hneither _ (List.mem_cons_of_mem _ List.mem_cons_self)
      | false => exact hneither _ List.mem_cons_self
    exact (dif_pos hvalid).trans (if_neg hversion)

theorem setString_setSecret (vchSecret : Bytes 32) (fCompressed : Bool) :
    CBitcoinSecret.setString hash fTestNet ((CBitcoinSecret.setSecret fTestNet vchSecret fCompressed).toString hash) =
      (true, CBitcoinSecret.setSecret fTestNet vchSecret fCompressed) := by
  have hvalid : (CBitcoinSecret.setSecret fTestNet vchSecret fCompressed).isValid fTestNet = true := by
    have hlen := vchSecret.toList_length
    cases fCompressed <;> simp [CBitcoinSecret.isValid, CBitcoinSecret.setSecret, hlen]
  rw [CBitcoinSecret.setString, setString_toString]
  exact Prod.ext hvalid rfl

theorem getSecret_setSecret (vchSecret : Bytes 32) (fCompressed : Bool) :
    (CBitcoinSecret.setSecret fTestNet vchSecret fCompressed).getSecret = (vchSecret.toList, fCompressed) := by
  have hlen := vchSecret.toList_length
  cases fCompressed <;> simp [CBitcoinSecret.getSecret, CBitcoinSecret.setSecret, hlen]

/-- **Base58 is a bijection** between byte strings and the texts of its
letters; blanks around a text are read over, and nothing is read past a NUL.
Addresses and secrets are read back from their text, and no string is accepted
that does not carry the checksum of its data. -/
theorem base58_bijective :
    (∀ vch, decodeBase58 (encodeBase58 vch) = some vch) ∧
      (∀ s vch, decodeBase58 s = some vch → encodeBase58 vch = strip (cstr s)) ∧
      (∀ dest : CTxDestination,
        CBitcoinAddress.setString hash ((CBitcoinAddress.set fTestNet dest).toString hash) =
            some (CBitcoinAddress.set fTestNet dest) ∧
          (CBitcoinAddress.set fTestNet dest).get fTestNet = some dest) ∧
      (∀ (vchSecret : Bytes 32) (fCompressed : Bool),
        CBitcoinSecret.setString hash fTestNet ((CBitcoinSecret.setSecret fTestNet vchSecret fCompressed).toString hash) =
            (true, CBitcoinSecret.setSecret fTestNet vchSecret fCompressed) ∧
          (CBitcoinSecret.setSecret fTestNet vchSecret fCompressed).getSecret = (vchSecret.toList, fCompressed)) ∧
      ∀ s addr, CBitcoinAddress.setString hash s = some addr ↔ decodeBase58 s = some (withChecksum hash addr) :=
  ⟨decodeBase58_encodeBase58, fun _ _ => encodeBase58_of_decodeBase58, fun dest => ⟨setString_toString _, get_set dest⟩,
    fun vchSecret fCompressed => ⟨setString_setSecret vchSecret fCompressed, getSecret_setSecret vchSecret fCompressed⟩,
    fun _ _ => setString_eq_some_iff⟩

end

/-- What is behind a NUL is accepted unread. -/
theorem not_encodeBase58_nul : ¬ ∀ s vch, decodeBase58 s = some vch → encodeBase58 vch = strip s := by
  intro h
  exact absurd (h ['2', '\x00', '!'] [1] (by decide)) (by decide)

end Pinkcoin
