/-
The keys of a wallet as a text file: `dumpwallet` writes each of them on a
line, with its time and its label, and `importwallet` reads the lines. The
time library is given, and so is what `AddKey` returns. The scan that follows
the lines is left out.
-/
import Pinkcoin.Lib.Decimal
import Pinkcoin.Text.Base58
import Pinkcoin.Text.Base64

namespace Pinkcoin

open CScript (leBytes leNat)

/-! ## Escaped strings -/

def hexmap : List UInt8 := chars "0123456789abcdef"

/-- `HexStr`, of one byte. -/
def hexStr (val : UInt8) : List UInt8 := [hexmap.getD (val >>> 4).toNat 0, hexmap.getD (val &&& 15).toNat 0]

/-- The characters that are written as `%hh`. -/
def isEscaped (c : UInt8) : Bool := decide (c ≤ 32) || decide (128 ≤ c) || c == 37

def encodeDumpString (str : List UInt8) : List UInt8 :=
  str.flatMap fun c => if isEscaped c then 37 :: hexStr c else [c]

/-- `(ch>>6)*9+((ch-'0')&15)`, of a signed character. -/
def hexDigit (ch : UInt8) : BitVec 32 :=
  let ch := ch.toBitVec.signExtend 32
  ch.sshiftRight 6 * 9 + ((ch - 48) &&& 15)

/-- The character for two digits. -/
def unescape (a b : UInt8) : UInt8 := ⟨((hexDigit a <<< 4) ||| hexDigit b).setWidth 8⟩

def decodeDumpString : List UInt8 → List UInt8
  | c :: a :: b :: str => if c = 37 then unescape a b :: decodeDumpString str else c :: decodeDumpString (a :: b :: str)
  | str => str

/-! ## The wallet -/

/-- What is used of a block index. -/
structure BlockRef where
  nHeight : Int
  nTime : UInt32
  deriving DecidableEq

/-- `CBasicKeyStore`: the keys, each with its secret and whether its public key
is compressed, under the ids of their public keys. -/
structure KeyStore (keyID : Bytes 32 × Bool → CKeyID) where
  mapKeys : Map CKeyID (Bytes 32 × Bool)
  keyed : ∀ k key, mapKeys.lookup k = some key → keyID key = k

namespace KeyStore

variable {keyID : Bytes 32 × Bool → CKeyID}

/-- `CBasicKeyStore::AddKey`. -/
def addKey (s : KeyStore keyID) (key : Bytes 32 × Bool) : KeyStore keyID where
  mapKeys := s.mapKeys.insert (keyID key) key
  keyed k key' h := by
    by_cases hk : k = keyID key
    · rw [hk, AList.lookup_insert] at h
      rw [hk, Option.some.inj h]
    · rw [AList.lookup_insert_ne hk] at h
      exact s.keyed k key' h

end KeyStore

/-- The keys of an unlocked wallet, their times, the address book, the ids in
the key pool; and its transactions: the block, if it is in the main chain, and
the scripts. -/
structure DumpWallet (keyID : Bytes 32 × Bool → CKeyID) extends KeyStore keyID where
  mapKeyMetadata : Map CKeyID Int
  mapAddressBook : Map CTxDestination (List UInt8)
  setKeyPool : List CKeyID
  mapWallet : List (Option BlockRef × List CScript)

/-- What the calls meet: the constants of the build, the state of the chain,
the libraries, and the results of `ExtractAffectedKeys` and `AddKey`, whose two
parts are the key store and the file. -/
structure DumpEnv where
  CLIENT_BUILD : List UInt8
  CLIENT_DATE : List UInt8
  adjustedTime : Int
  nBestHeight : Int
  hashBestChain : Uint256
  pindexBest : BlockRef
  /-- `FindBlockByHeight(std::max(0, nBestHeight - 144))`. -/
  pindexMax : BlockRef
  fTestNet : Bool
  hash : List UInt8 → Bytes 32
  /-- The id of the public key of a secret. -/
  keyID : Bytes 32 × Bool → CKeyID
  extractAffectedKeys : CScript → List CKeyID
  storeKey : CKeyID → Bool
  writeKey : CKeyID → Bool
  encodeDumpTime : Int → List UInt8
  decodeDumpTime : List UInt8 → Int

namespace DumpEnv

variable (e : DumpEnv)

/-! ## GetKeyBirthTimes -/

/-- A block that affects keys, for the map of first blocks. -/
def lowerFirst (pindex : BlockRef) (mapKeyFirstBlock : Map CKeyID BlockRef) (keyid : CKeyID) : Map CKeyID BlockRef :=
  match mapKeyFirstBlock.lookup keyid with
  | none => mapKeyFirstBlock
  | some first => if pindex.nHeight < first.nHeight then mapKeyFirstBlock.insert keyid pindex else mapKeyFirstBlock

/-- The body of the loop over the transactions. -/
def firstBlocks (mapKeyFirstBlock : Map CKeyID BlockRef) (wtx : Option BlockRef × List CScript) : Map CKeyID BlockRef :=
  match wtx.1 with
  | none => mapKeyFirstBlock
  | some pindex => (wtx.2.flatMap e.extractAffectedKeys).foldl (lowerFirst pindex) mapKeyFirstBlock

/-- The times that are known. -/
def knownBirths (w : DumpWallet e.keyID) : List (CKeyID × Int) :=
  w.mapKeyMetadata.entries.filterMap fun it => if it.2 ≠ 0 then some (it.1, it.2) else none

def getKeyBirthTimes (w : DumpWallet e.keyID) : Map CKeyID Int :=
  let mapKeyBirth := (e.knownBirths w).foldl (fun m it => m.insert it.1 it.2) ∅
  let keys := w.mapKeys.keys.filter fun keyid => decide (keyid ∉ mapKeyBirth)
  let mapKeyFirstBlock := w.mapWallet.foldl e.firstBlocks (keys.foldl (fun m keyid => m.insert keyid e.pindexMax) ∅)
  -- unsigned, as the block's time is
  mapKeyFirstBlock.entries.foldl (fun m it => m.insert it.1 (it.2.nTime - 7200).toNat) mapKeyBirth

/-! ## dumpwallet -/

/-- The text of a string of letters and digits. -/
def textOf (s : List Char) : List UInt8 := s.map fun c => UInt8.ofNat c.toNat

/-- The order of `std::pair<int64_t, CKeyID>`. -/
def pairLe (a b : Int × CKeyID) : Bool := decide (a.1 < b.1 ∨ a.1 = b.1 ∧ leNat a.2.toList ≤ leNat b.2.toList)

/-- `GetHex`. -/
def getHex (hash : Uint256) : List UInt8 := (leBytes 32 hash).reverse.flatMap hexStr

def dumpHeader : List (List UInt8) :=
  [chars "# Wallet dump created by Pinkcoin " ++ e.CLIENT_BUILD ++ chars " (" ++ e.CLIENT_DATE ++ chars ")",
    chars "# * Created on " ++ e.encodeDumpTime e.adjustedTime,
    chars "# * Best block at time of backup was " ++ Decimal.printInt e.nBestHeight ++ chars " (" ++
      getHex e.hashBestChain ++ chars "),",
    chars "#   mined on " ++ e.encodeDumpTime e.pindexBest.nTime.toNat,
    []]

/-- The line of a key. -/
def dumpLine (w : DumpWallet e.keyID) (keyid : CKeyID) (nTime : Int) (key : Bytes 32 × Bool) : List UInt8 :=
  let strAddr := textOf ((CBitcoinAddress.ofKeyID e.fTestNet keyid).toString e.hash)
  let strSecret := textOf ((CBitcoinSecret.setSecret e.fTestNet key.1 key.2).toString e.hash)
  let field :=
    match w.mapAddressBook.lookup (.keyID keyid) with
    | some label => chars "label=" ++ encodeDumpString label
    | none => if keyid ∈ w.setKeyPool then chars "reserve=1" else chars "change=1"
  strSecret ++ chars " " ++ e.encodeDumpTime nTime ++ chars " " ++ field ++ chars " # addr=" ++ strAddr

/-- The keys with their times, sorted. -/
def vKeyBirth (w : DumpWallet e.keyID) : List (Int × CKeyID) :=
  ((e.getKeyBirthTimes w).entries.map fun it => (it.2, it.1)).mergeSort pairLe

/-- The lines that `dumpwallet` writes. -/
def dumpLines (w : DumpWallet e.keyID) : List (List UInt8) :=
  e.dumpHeader ++
    (e.vKeyBirth w).filterMap (fun it => (w.mapKeys.lookup it.2).map (e.dumpLine w it.2 it.1)) ++
    [[], chars "# End of dump"]

/-- `dumpwallet`: the file. -/
def dumpwallet (w : DumpWallet e.keyID) : List UInt8 := (e.dumpLines w).flatMap (· ++ [10])

/-! ## importwallet -/

/-- What is read from a line. -/
structure ImportedKey where
  secret : Bytes 32
  fCompressed : Bool
  nTime : Int
  strLabel : List UInt8
  fLabel : Bool

/-- The loop over the optional fields. -/
def readFields : List (List UInt8) → List UInt8 × Bool → List UInt8 × Bool
  | [], s => s
  | str :: vstr, (strLabel, fLabel) =>
    if chars "#" <+: str then (strLabel, fLabel)
    else
      let fLabel := if str = chars "change=1" then false else fLabel
      let fLabel := if str = chars "reserve=1" then false else fLabel
      if chars "label=" <+: str then readFields vstr (decodeDumpString (str.drop 6), true)
      else readFields vstr (strLabel, fLabel)

/-- What `importwallet` reads from a line, if it does not pass over it. -/
def readLine (line : List UInt8) : Option ImportedKey :=
  if line = [] ∨ chars "#" <+: line then none
  else
    let vstr := line.splitOn 32
    if vstr.length < 2 then none
    else
      match CBitcoinSecret.setString e.hash e.fTestNet ((vstr.getD 0 []).map fun b => Char.ofNat b.toNat) with
      | (false, _) => none
      | (true, vchSecret) =>
        let (secret, fCompressed) := vchSecret.getSecret
        if h : secret.length = 32 then
          let (strLabel, fLabel) := readFields (vstr.drop 2) ([], true)
          some ⟨⟨secret, h⟩, fCompressed, e.decodeDumpTime (vstr.getD 1 []), strLabel, fLabel⟩
        else none

/-- What the loop of `importwallet` changes. -/
structure Importing (keyID : Bytes 32 × Bool → CKeyID) where
  w : DumpWallet keyID
  fGood : Bool
  nTimeBegin : Int

/-- The body of the loop, for a line with a key. -/
def importKey (s : Importing e.keyID) (key : ImportedKey) : Importing e.keyID :=
  let keyid := e.keyID (key.secret, key.fCompressed)
  if keyid ∈ s.w.mapKeys then s
  else if ¬ e.storeKey keyid then { s with fGood := false }
  else
    let w := { s.w with toKeyStore := s.w.addKey (key.secret, key.fCompressed) }
    if ¬ e.writeKey keyid then { s with w := w, fGood := false }
    else
      { s with
        w := { w with
          mapKeyMetadata := w.mapKeyMetadata.insert keyid key.nTime
          mapAddressBook :=
            if key.fLabel then w.mapAddressBook.insert (.keyID keyid) key.strLabel else w.mapAddressBook }
        nTimeBegin := min s.nTimeBegin key.nTime }

/-- The body of the loop. -/
def importLine (s : Importing e.keyID) (line : List UInt8) : Importing e.keyID :=
  match e.readLine line with
  | none => s
  | some key => e.importKey s key

/-- `importwallet`, up to the scan. -/
def importwallet (w : DumpWallet e.keyID) (file : List UInt8) : Importing e.keyID :=
  (file.splitOn 10).foldl e.importLine ⟨w, true, e.pindexBest.nTime.toNat⟩

end DumpEnv

/-! ## Strings come back -/

theorem unescape_hexStr : ∀ n < 256, unescape (hexmap.getD (UInt8.ofNat n >>> 4).toNat 0)
    (hexmap.getD (UInt8.ofNat n &&& 15).toNat 0) = UInt8.ofNat n := by
  decide +kernel

theorem decode_escaped (c : UInt8) (str : List UInt8) :
    decodeDumpString (37 :: hexStr c ++ str) = c :: decodeDumpString str := by
  have hc := unescape_hexStr c.toNat c.toNat_lt
  rw [UInt8.ofNat_toNat] at hc
  simp only [hexStr, List.cons_append, List.nil_append, decodeDumpString, if_pos, hc]

theorem decode_plain {c : UInt8} (hc : c ≠ 37) (str : List UInt8) :
    decodeDumpString (c :: str) = c :: decodeDumpString str := by
  match str with
  | [] => rfl
  | [_] => rfl
  | _ :: _ :: _ => rw [decodeDumpString, if_neg hc]

/-- **Every byte string comes back.** -/
theorem decodeDumpString_encodeDumpString (str : List UInt8) : decodeDumpString (encodeDumpString str) = str := by
  induction str with
  | nil => rfl
  | cons c str ih =>
    rw [encodeDumpString, List.flatMap_cons]
    by_cases hescaped : isEscaped c = true
    · rw [if_pos hescaped, decode_escaped]
      exact congrArg (c :: ·) ih
    · have hc : c ≠ 37 := by
        rintro rfl
        exact hescaped rfl
      rw [if_neg hescaped, List.singleton_append, decode_plain hc]
      exact congrArg (c :: ·) ih

/-- A byte that separates nothing: neither a blank nor a line feed. -/
def Solid (str : List UInt8) : Prop := ∀ c ∈ str, c ≠ 32 ∧ c ≠ 10

instance (str : List UInt8) : Decidable (Solid str) := List.decidableBAll (fun c => c ≠ 32 ∧ c ≠ 10) str

theorem Solid.append {a b : List UInt8} (ha : Solid a) (hb : Solid b) : Solid (a ++ b) := fun c hc =>
  (List.mem_append.mp hc).elim (ha c) (hb c)

theorem solid_hexStr : ∀ n < 256, Solid (hexStr (UInt8.ofNat n)) := by
  decide +kernel

/-- **A label cannot imitate** the end of a field or of a line. -/
theorem solid_encodeDumpString (str : List UInt8) : Solid (encodeDumpString str) := by
  intro c hc
  obtain ⟨b, -, hc⟩ := List.mem_flatMap.mp hc
  by_cases hescaped : isEscaped b = true
  · rw [if_pos hescaped] at hc
    rcases List.mem_cons.mp hc with rfl | hc
    · decide
    · have hsolid := solid_hexStr b.toNat b.toNat_lt
      rw [UInt8.ofNat_toNat] at hsolid
      exact hsolid c hc
  · rw [if_neg hescaped] at hc
    obtain rfl := List.mem_singleton.mp hc
    constructor
    · rintro rfl
      exact hescaped rfl
    · rintro rfl
      exact hescaped rfl

/-! ## Keys and addresses as text -/

theorem letter_bounds : ∀ c ∈ pszBase58, c.toNat < 128 ∧ UInt8.ofNat c.toNat ≠ 32 ∧ UInt8.ofNat c.toNat ≠ 10 ∧
    UInt8.ofNat c.toNat ≠ 35 := by
  have hall : pszBase58.all (fun c => decide (c.toNat < 128 ∧ UInt8.ofNat c.toNat ≠ 32 ∧ UInt8.ofNat c.toNat ≠ 10 ∧
      UInt8.ofNat c.toNat ≠ 35)) = true := by decide +kernel
  intro c hc
  exact of_decide_eq_true (List.all_eq_true.mp hall c hc)

/-- Base58 has no other letters. -/
theorem mem_encodeBase58 {vch : List UInt8} {c : Char} (hc : c ∈ encodeBase58 vch) : c ∈ pszBase58 := by
  rw [encodeBase58_eq] at hc
  obtain ⟨d, hd, rfl⟩ := List.mem_map.mp hc
  have hlt := Numerals.convert_lt (by decide) hd
  rw [base58Letter, List.getD_eq_getElem _ _ (show d < pszBase58.length from hlt)]
  exact List.getElem_mem _

namespace DumpEnv

theorem solid_textOf {vch : List UInt8} : Solid (textOf (encodeBase58 vch)) := by
  intro c hc
  obtain ⟨letter, hletter, rfl⟩ := List.mem_map.mp hc
  obtain ⟨-, hblank, hline, -⟩ := letter_bounds letter (mem_encodeBase58 hletter)
  exact ⟨hblank, hline⟩

theorem char_textOf {vch : List UInt8} :
    (textOf (encodeBase58 vch)).map (fun b => Char.ofNat b.toNat) = encodeBase58 vch := by
  rw [textOf, List.map_map]
  refine (List.map_congr_left fun c hc => ?_).trans (List.map_id _)
  have hlt := (letter_bounds c (mem_encodeBase58 hc)).1
  have hbyte : (UInt8.ofNat c.toNat).toNat = c.toNat := by
    rw [UInt8.toNat_ofNat']
    omega
  simp only [Function.comp, hbyte, Char.ofNat_toNat, id]

/-! ## A line comes back -/

variable {e : DumpEnv} {w : DumpWallet e.keyID} {keyid : CKeyID} {nTime : Int} {key : Bytes 32 × Bool}

/-- The field of a key that is not in the address book. -/
def otherField (w : DumpWallet e.keyID) (keyid : CKeyID) : List UInt8 :=
  if keyid ∈ w.setKeyPool then chars "reserve=1" else chars "change=1"

def fieldOf (w : DumpWallet e.keyID) (keyid : CKeyID) : List UInt8 :=
  match w.mapAddressBook.lookup (.keyID keyid) with
  | some label => chars "label=" ++ encodeDumpString label
  | none => otherField w keyid

theorem solid_fieldOf : Solid (fieldOf w keyid) := by
  unfold fieldOf
  split
  · exact Solid.append (by decide +kernel) (solid_encodeDumpString _)
  · unfold otherField
    split <;> decide +kernel

/-- The line of a key, by its blanks. -/
theorem dumpLine_eq : e.dumpLine w keyid nTime key = [32].intercalate
    [textOf ((CBitcoinSecret.setSecret e.fTestNet key.1 key.2).toString e.hash), e.encodeDumpTime nTime,
      fieldOf w keyid,
      chars "#", chars "addr=" ++ textOf ((CBitcoinAddress.ofKeyID e.fTestNet keyid).toString e.hash)] := by
  have hblank : chars " " = [32] := by decide
  have haddr : chars " # addr=" = 32 :: chars "#" ++ 32 :: chars "addr=" := by decide
  unfold dumpLine fieldOf otherField
  dsimp only
  rw [hblank, haddr]
  simp only [List.intercalate_cons_cons, List.intercalate_singleton, List.append_assoc, List.cons_append,
    List.nil_append]

/-- The optional fields of such a line. -/
theorem readFields_fieldOf (rest : List (List UInt8)) : readFields (fieldOf w keyid :: chars "#" :: rest) ([], true) =
    ((w.mapAddressBook.lookup (.keyID keyid)).getD [], (w.mapAddressBook.lookup (.keyID keyid)).isSome) := by
  have hstop : ∀ s, readFields (chars "#" :: rest) s = s := fun s => by
    rw [readFields, if_pos (List.prefix_refl _)]
  unfold fieldOf
  cases hlabel : w.mapAddressBook.lookup (.keyID keyid) with
  | none =>
    dsimp only
    rw [otherField]
    split
    · have hopen : ¬ chars "#" <+: chars "reserve=1" := by decide
      have hlabel : ¬ chars "label=" <+: chars "reserve=1" := by decide
      rw [readFields, if_neg hopen]
      dsimp only
      rw [if_pos rfl, if_neg hlabel, hstop]
      rfl
    · have hopen : ¬ chars "#" <+: chars "change=1" := by decide
      have hreserve : chars "change=1" ≠ chars "reserve=1" := by decide
      have hlabel : ¬ chars "label=" <+: chars "change=1" := by decide
      rw [readFields, if_neg hopen]
      dsimp only
      rw [if_neg hreserve, if_pos rfl, if_neg hlabel, hstop]
      rfl
  | some label =>
    have hopen : ¬ chars "#" <+: chars "label=" ++ encodeDumpString label := fun h =>
      absurd (List.prefix_of_prefix_length_le h (List.prefix_append _ _) (by decide)) (by decide)
    have hdrop : (chars "label=" ++ encodeDumpString label).drop 6 = encodeDumpString label :=
      List.drop_left' (by decide)
    dsimp only
    rw [readFields, if_neg hopen, if_pos (List.prefix_append _ _), hdrop, decodeDumpString_encodeDumpString, hstop]
    rfl

/-- A line that starts with letters of Base58 and a blank is not a comment. -/
theorem not_comment (vch rest : List UInt8) : ¬ (textOf (encodeBase58 vch) ++ 32 :: rest = [] ∨
    chars "#" <+: textOf (encodeBase58 vch) ++ 32 :: rest) := by
  have hsharp : chars "#" = [35] := by decide
  have hletters : ∀ c ∈ textOf (encodeBase58 vch), c ≠ 35 := by
    intro c hc
    obtain ⟨letter, hletter, rfl⟩ := List.mem_map.mp hc
    exact (letter_bounds letter (mem_encodeBase58 hletter)).2.2.2
  rw [hsharp]
  cases htext : textOf (encodeBase58 vch) with
  | nil => simp [List.cons_prefix_cons]
  | cons c text =>
    have hc := hletters c (htext ▸ List.mem_cons_self)
    simp [List.cons_prefix_cons, Ne.symm hc]

/-- **A line comes back**: the key with its form, its time, and its label if
it has one. -/
theorem readLine_dumpLine (htime : Solid (e.encodeDumpTime nTime))
    (hexact : e.decodeDumpTime (e.encodeDumpTime nTime) = nTime) :
    e.readLine (e.dumpLine w keyid nTime key) = some ⟨key.1, key.2, nTime,
      (w.mapAddressBook.lookup (.keyID keyid)).getD [], (w.mapAddressBook.lookup (.keyID keyid)).isSome⟩ := by
  have hsplit : (e.dumpLine w keyid nTime key).splitOn 32 =
      [textOf ((CBitcoinSecret.setSecret e.fTestNet key.1 key.2).toString e.hash), e.encodeDumpTime nTime,
        fieldOf w keyid, chars "#",
        chars "addr=" ++ textOf ((CBitcoinAddress.ofKeyID e.fTestNet keyid).toString e.hash)] := by
    rw [dumpLine_eq]
    refine List.splitOn_intercalate 32 ?_ (List.cons_ne_nil _ _)
    have hsolid : ∀ {str}, Solid str → (32 : UInt8) ∉ str := fun h hmem => (h 32 hmem).1 rfl
    simp only [List.forall_mem_cons, List.not_mem_nil, IsEmpty.forall_iff, implies_true, and_true]
    exact ⟨hsolid solid_textOf, hsolid htime, hsolid solid_fieldOf, by decide,
      hsolid (Solid.append (by decide +kernel) solid_textOf)⟩
  have hcomment : ¬ (e.dumpLine w keyid nTime key = [] ∨ chars "#" <+: e.dumpLine w keyid nTime key) := by
    rw [dumpLine_eq, List.intercalate_cons_cons, List.append_assoc]
    exact not_comment _ _
  have htext : (textOf ((CBitcoinSecret.setSecret e.fTestNet key.1 key.2).toString e.hash)).map
      (fun b => Char.ofNat b.toNat) = (CBitcoinSecret.setSecret e.fTestNet key.1 key.2).toString e.hash := char_textOf
  rw [readLine, if_neg hcomment]
  dsimp only
  rw [hsplit, if_neg (by simp), List.getD_cons_zero, htext, setString_setSecret]
  dsimp only
  rw [getSecret_setSecret]
  dsimp only
  rw [dif_pos key.1.toList_length, List.getD_cons_succ, List.getD_cons_zero, hexact]
  have hfields := @readFields_fieldOf e w keyid
    [chars "addr=" ++ textOf ((CBitcoinAddress.ofKeyID e.fTestNet keyid).toString e.hash)]
  simp only [List.drop_succ_cons, List.drop_zero, hfields]
  rfl

/-! ## The lines of the file -/

/-- What is relied on: the constants of the build have no line feed, and a time
is printed without one and without blanks. -/
structure Printed (e : DumpEnv) : Prop where
  build : 10 ∉ e.CLIENT_BUILD
  date : 10 ∉ e.CLIENT_DATE
  time : ∀ nTime, Solid (e.encodeDumpTime nTime)

theorem Printed.no_feed (h : e.Printed) (nTime : Int) : 10 ∉ e.encodeDumpTime nTime := fun hmem =>
  (h.time nTime 10 hmem).2 rfl

theorem no_feed_print (i : Int) : (10 : UInt8) ∉ Decimal.printInt i := by
  have hdigits : ∀ n, (10 : UInt8) ∉ Decimal.print n := fun n hmem =>
    absurd (Decimal.print_isDigit n 10 hmem) (by decide)
  unfold Decimal.printInt
  split
  · exact fun hmem => (List.mem_cons.mp hmem).elim (by decide) (hdigits _)
  · exact hdigits _

theorem no_feed_getHex (hash : Uint256) : 10 ∉ getHex hash := by
  intro hmem
  obtain ⟨b, -, hb⟩ := List.mem_flatMap.mp hmem
  have hsolid := solid_hexStr b.toNat b.toNat_lt
  rw [UInt8.ofNat_toNat] at hsolid
  exact (hsolid 10 hb).2 rfl

theorem no_feed_header (h : e.Printed) : ∀ line ∈ e.dumpHeader, 10 ∉ line := by
  have hlit : ∀ str ∈ [chars "# Wallet dump created by Pinkcoin ", chars " (", chars ")", chars "# * Created on ",
      chars "# * Best block at time of backup was ", chars "),", chars "#   mined on "], (10 : UInt8) ∉ str := by
    decide +kernel
  simp only [List.forall_mem_cons, List.not_mem_nil, IsEmpty.forall_iff, implies_true, and_true] at hlit
  obtain ⟨hcreated, hopen, hclose, hon, hbest, hcomma, hmined⟩ := hlit
  simp only [dumpHeader, List.forall_mem_cons, List.mem_append, not_or, List.not_mem_nil, IsEmpty.forall_iff,
    implies_true, and_true, not_false_eq_true]
  exact ⟨⟨⟨⟨⟨hcreated, h.build⟩, hopen⟩, h.date⟩, hclose⟩, ⟨hon, h.no_feed _⟩,
    ⟨⟨⟨⟨hbest, no_feed_print _⟩, hopen⟩, no_feed_getHex _⟩, hcomma⟩, hmined, h.no_feed _⟩

theorem no_feed_dumpLine (h : e.Printed) : 10 ∉ e.dumpLine w keyid nTime key := by
  have hsolid : ∀ {str}, Solid str → (10 : UInt8) ∉ str := fun h hmem => (h 10 hmem).2 rfl
  have hblank : (10 : UInt8) ∉ [32] := by decide
  rw [dumpLine_eq]
  simp only [List.intercalate_cons_cons, List.intercalate_singleton, List.mem_append, not_or]
  exact ⟨⟨hsolid solid_textOf, hblank⟩, ⟨h.no_feed _, hblank⟩, ⟨hsolid solid_fieldOf, hblank⟩, ⟨by decide, hblank⟩,
    by decide +kernel, hsolid solid_textOf⟩

/-- A comment or an empty line is passed over. -/
theorem importLine_comment {s : Importing e.keyID} {line : List UInt8} (h : line = [] ∨ chars "#" <+: line) :
    e.importLine s line = s := by
  rw [importLine, readLine, if_pos h]

theorem comment_header : ∀ line ∈ e.dumpHeader, line = [] ∨ chars "#" <+: line := by
  simp only [dumpHeader, List.forall_mem_cons, List.append_assoc, List.not_mem_nil, IsEmpty.forall_iff, implies_true,
    and_true, true_or]
  exact ⟨.inr (.trans (by decide) (List.prefix_append _ _)), .inr (.trans (by decide) (List.prefix_append _ _)),
    .inr (.trans (by decide) (List.prefix_append _ _)), .inr (.trans (by decide) (List.prefix_append _ _))⟩

/-- The lines with a key: the key, its time, and its secret and form. -/
def dumped (e : DumpEnv) (w : DumpWallet e.keyID) : List (CKeyID × Int × (Bytes 32 × Bool)) :=
  (e.vKeyBirth w).filterMap fun it => (w.mapKeys.lookup it.2).map fun key => (it.2, it.1, key)

theorem dumpLines_eq : e.dumpLines w =
    e.dumpHeader ++ (e.dumped w).map (fun d => e.dumpLine w d.1 d.2.1 d.2.2) ++ [[], chars "# End of dump"] := by
  rw [dumpLines, dumped, List.map_filterMap]
  simp only [Option.map_map]
  rfl

/-- A file of lines, split again. -/
theorem splitOn_lines (lines : List (List UInt8)) (h : ∀ line ∈ lines, 10 ∉ line) :
    (lines.flatMap (· ++ [10])).splitOn 10 = lines ++ [[]] := by
  have hjoin : lines.flatMap (· ++ [10]) = [10].intercalate (lines ++ [[]]) := by
    clear h
    induction lines with
    | nil => rfl
    | cons line lines ih =>
      rw [List.flatMap_cons, ih]
      cases lines with
      | nil => simp
      | cons line' lines => simp only [List.cons_append, List.intercalate_cons_cons]
  rw [hjoin]
  refine List.splitOn_intercalate 10 (fun line hline => ?_)
    (List.append_ne_nil_of_right_ne_nil _ (List.cons_ne_nil _ _))
  rcases List.mem_append.mp hline with hline | hline
  · exact h line hline
  · rw [List.mem_singleton.mp hline]
    exact List.not_mem_nil

/-- What is read from the line of a key. -/
def ofDumped (w : DumpWallet e.keyID) (d : CKeyID × Int × (Bytes 32 × Bool)) : ImportedKey :=
  ⟨d.2.2.1, d.2.2.2, d.2.1, (w.mapAddressBook.lookup (.keyID d.1)).getD [],
    (w.mapAddressBook.lookup (.keyID d.1)).isSome⟩

/-- **An import of a dump** imports the keys that were dumped. -/
theorem importwallet_dumpwallet (h : e.Printed)
    (hexact : ∀ d ∈ e.dumped w, e.decodeDumpTime (e.encodeDumpTime d.2.1) = d.2.1) (w' : DumpWallet e.keyID) :
    e.importwallet w' (e.dumpwallet w) =
      ((e.dumped w).map (ofDumped w)).foldl e.importKey ⟨w', true, e.pindexBest.nTime.toNat⟩ := by
  have hcomments : ∀ (lines : List (List UInt8)) s, (∀ line ∈ lines, line = [] ∨ chars "#" <+: line) →
      lines.foldl e.importLine s = s := by
    intro lines
    induction lines with
    | nil => exact fun _ _ => rfl
    | cons line lines ih =>
      intro s hlines
      obtain ⟨hline, hlines⟩ := List.forall_mem_cons.mp hlines
      rw [List.foldl_cons, importLine_comment hline]
      exact ih s hlines
  have hfeed : ∀ line ∈ e.dumpLines w, 10 ∉ line := by
    intro line hline
    rw [dumpLines_eq] at hline
    rcases List.mem_append.mp hline with hline | hline
    · rcases List.mem_append.mp hline with hline | hline
      · exact no_feed_header h line hline
      · obtain ⟨d, -, rfl⟩ := List.mem_map.mp hline
        exact no_feed_dumpLine h
    · have hend : ∀ line ∈ [[], chars "# End of dump"], (10 : UInt8) ∉ line := by decide +kernel
      exact hend line hline
  rw [importwallet, dumpwallet, splitOn_lines _ hfeed, dumpLines_eq, List.foldl_append, List.foldl_append,
    List.foldl_append, hcomments _ _ comment_header]
  have hkeys : ∀ (l : List (CKeyID × Int × (Bytes 32 × Bool))) s, (∀ d ∈ l, d ∈ e.dumped w) →
      (l.map fun d => e.dumpLine w d.1 d.2.1 d.2.2).foldl e.importLine s =
        (l.map (ofDumped w)).foldl e.importKey s := by
    intro l
    induction l with
    | nil => exact fun _ _ => rfl
    | cons d l ih =>
      intro s hl
      obtain ⟨hd, hl⟩ := List.forall_mem_cons.mp hl
      have hline : e.importLine s (e.dumpLine w d.1 d.2.1 d.2.2) = e.importKey s (ofDumped w d) := by
        rw [importLine, readLine_dumpLine (h.time _) (hexact d hd)]
        rfl
      rw [List.map_cons, List.map_cons, List.foldl_cons, List.foldl_cons, hline]
      exact ih _ hl
  rw [hkeys _ _ fun _ h => h, hcomments [[], chars "# End of dump"] _ (by decide), hcomments [[]] _ (by decide)]

/-! ## The keys that are dumped -/

theorem mem_foldl_insert {V A : Type} (f : A → CKeyID) (g : A → V) (l : List A) (m : Map CKeyID V) (k : CKeyID) :
    k ∈ l.foldl (fun m a => m.insert (f a) (g a)) m ↔ k ∈ m ∨ k ∈ l.map f := by
  induction l generalizing m with
  | nil => simp
  | cons a l ih =>
    rw [List.foldl_cons, ih, AList.mem_insert, List.map_cons, List.mem_cons]
    constructor
    · rintro ((h | h) | h)
      · exact .inr (.inl h)
      · exact .inl h
      · exact .inr (.inr h)
    · rintro (h | h | h)
      · exact .inl (.inr h)
      · exact .inl (.inl h)
      · exact .inr h

theorem mem_lowerFirst {pindex : BlockRef} {m : Map CKeyID BlockRef} {k : CKeyID} :
    k ∈ lowerFirst pindex m keyid ↔ k ∈ m := by
  unfold lowerFirst
  cases hfirst : m.lookup keyid with
  | none => rfl
  | some first =>
    have hmem : keyid ∈ m := AList.lookup_isSome.mp (hfirst ▸ rfl)
    dsimp only
    split
    · rw [AList.mem_insert]
      exact or_iff_right_of_imp fun h => h ▸ hmem
    · rfl

/-- The loop over the transactions leaves the keys it looks for. -/
theorem mem_foldl_firstBlocks (l : List (Option BlockRef × List CScript)) (m : Map CKeyID BlockRef) (k : CKeyID) :
    k ∈ l.foldl e.firstBlocks m ↔ k ∈ m := by
  induction l generalizing m with
  | nil => rfl
  | cons wtx l ih =>
    rw [List.foldl_cons, ih, firstBlocks]
    cases wtx.1 with
    | none => rfl
    | some pindex =>
      dsimp only
      generalize wtx.2.flatMap e.extractAffectedKeys = vAffected
      induction vAffected generalizing m with
      | nil => rfl
      | cons keyid vAffected ih => exact (ih _).trans mem_lowerFirst

/-- **Every key has a birth time.** -/
theorem mem_getKeyBirthTimes {k : CKeyID} (hk : k ∈ w.mapKeys) : k ∈ e.getKeyBirthTimes w := by
  unfold getKeyBirthTimes
  dsimp only
  rw [mem_foldl_insert]
  by_cases hknown : k ∈ (e.knownBirths w).foldl (fun m it => m.insert it.1 it.2) (∅ : Map CKeyID Int)
  · exact .inl hknown
  · refine .inr ?_
    have hfirst : k ∈ w.mapWallet.foldl e.firstBlocks ((w.mapKeys.keys.filter fun keyid => decide (keyid ∉
        (e.knownBirths w).foldl (fun m it => m.insert it.1 it.2) (∅ : Map CKeyID Int))).foldl
          (fun m keyid => m.insert keyid e.pindexMax) ∅) := by
      rw [mem_foldl_firstBlocks, mem_foldl_insert (fun keyid => keyid) fun _ => e.pindexMax]
      exact .inr (List.mem_map.mpr ⟨k, List.mem_filter.mpr ⟨AList.mem_keys.mp hk, decide_eq_true hknown⟩, rfl⟩)
    obtain ⟨pindex, hpindex⟩ := Option.isSome_iff_exists.mp (AList.lookup_isSome.mpr hfirst)
    exact List.mem_map.mpr ⟨⟨k, pindex⟩, AList.mem_lookup_iff.mp hpindex, rfl⟩

theorem mem_dumped {d : CKeyID × Int × (Bytes 32 × Bool)} : d ∈ e.dumped w ↔
    (e.getKeyBirthTimes w).lookup d.1 = some d.2.1 ∧ w.mapKeys.lookup d.1 = some d.2.2 := by
  obtain ⟨k, t, key⟩ := d
  unfold dumped vKeyBirth
  rw [List.mem_filterMap]
  constructor
  · rintro ⟨⟨t', k'⟩, hmem, hkey⟩
    obtain ⟨key', hlookup, heq⟩ := Option.map_eq_some_iff.mp hkey
    cases heq
    obtain ⟨it, hit, heq⟩ := List.mem_map.mp ((List.mergeSort_perm _ _).mem_iff.mp hmem)
    cases heq
    exact ⟨AList.mem_lookup_iff.mpr hit, hlookup⟩
  · rintro ⟨hbirth, hlookup⟩
    have hmem : (t, k) ∈ (e.getKeyBirthTimes w).entries.map fun it => (it.2, it.1) :=
      List.mem_map.mpr ⟨⟨k, t⟩, AList.mem_lookup_iff.mp hbirth, rfl⟩
    refine ⟨(t, k), (List.mergeSort_perm _ _).mem_iff.mpr hmem, ?_⟩
    rw [hlookup]
    rfl

/-- Each key has one line. -/
theorem nodup_dumped : ((e.dumped w).map Prod.fst).Nodup := by
  have hkeys : (e.getKeyBirthTimes w).entries.Pairwise fun a b => a.1 ≠ b.1 :=
    List.nodupKeys_iff_pairwise.mp (e.getKeyBirthTimes w).nodupKeys
  have hbirths : (e.vKeyBirth w).Pairwise fun a b => a.2 ≠ b.2 := by
    have hperm := List.mergeSort_perm ((e.getKeyBirthTimes w).entries.map fun it => (it.2, it.1)) pairLe
    refine (hperm.pairwise_iff fun {a b} hne => Ne.symm hne).mpr ?_
    exact List.pairwise_map.mpr hkeys
  refine List.pairwise_map.mpr (List.Pairwise.filterMap _ (fun a b hne d hd d' hd' => ?_) hbirths)
  obtain ⟨key, -, rfl⟩ := Option.map_eq_some_iff.mp hd
  obtain ⟨key', -, rfl⟩ := Option.map_eq_some_iff.mp hd'
  exact hne

/-! ## The import -/

/-- What an import of these keys leaves of a wallet. -/
structure Imports (w : DumpWallet e.keyID) (l : List (CKeyID × Int × (Bytes 32 × Bool)))
    (s r : Importing e.keyID) : Prop where
  good : r.fGood = s.fGood
  key : ∀ d ∈ l, r.w.mapKeys.lookup d.1 = some d.2.2
  time : ∀ d ∈ l, r.w.mapKeyMetadata.lookup d.1 = some d.2.1
  label : ∀ d ∈ l, r.w.mapAddressBook.lookup (.keyID d.1) =
    (w.mapAddressBook.lookup (.keyID d.1)).or (s.w.mapAddressBook.lookup (.keyID d.1))
  other : ∀ k, k ∉ l.map Prod.fst → r.w.mapKeys.lookup k = s.w.mapKeys.lookup k ∧
    r.w.mapKeyMetadata.lookup k = s.w.mapKeyMetadata.lookup k ∧
    r.w.mapAddressBook.lookup (.keyID k) = s.w.mapAddressBook.lookup (.keyID k)
  script : ∀ id, r.w.mapAddressBook.lookup (.scriptID id) = s.w.mapAddressBook.lookup (.scriptID id)

/-- The key store and the wallet file take every key. -/
structure Takes (e : DumpEnv) : Prop where
  store : ∀ k, e.storeKey k = true
  write : ∀ k, e.writeKey k = true

/-- **One key** is imported. -/
theorem imports_one (htakes : e.Takes) {s : Importing e.keyID} {d : CKeyID × Int × (Bytes 32 × Bool)}
    (hid : e.keyID d.2.2 = d.1) (hnew : d.1 ∉ s.w.mapKeys) : Imports w [d] s (e.importKey s (ofDumped w d)) := by
  obtain ⟨k, t, key⟩ := d
  dsimp only at hid hnew
  subst hid
  have hstep : e.importKey s (ofDumped w (e.keyID key, t, key)) =
      { s with
        w := { s.w with
          toKeyStore := s.w.addKey key
          mapKeyMetadata := s.w.mapKeyMetadata.insert (e.keyID key) t
          mapAddressBook :=
            if (w.mapAddressBook.lookup (.keyID (e.keyID key))).isSome then
              s.w.mapAddressBook.insert (.keyID (e.keyID key))
                ((w.mapAddressBook.lookup (.keyID (e.keyID key))).getD [])
            else s.w.mapAddressBook }
        nTimeBegin := min s.nTimeBegin t } := by
    unfold importKey ofDumped
    dsimp only
    rw [if_neg hnew, if_neg (not_not_intro (htakes.store _)), if_neg (not_not_intro (htakes.write _))]
  rw [hstep]
  refine ⟨rfl, ?_, ?_, ?_, fun k hk => ?_, fun id => ?_⟩
  · exact fun d hd => List.mem_singleton.mp hd ▸ AList.lookup_insert _
  · exact fun d hd => List.mem_singleton.mp hd ▸ AList.lookup_insert _
  · intro d hd
    rw [List.mem_singleton.mp hd]
    dsimp only
    cases w.mapAddressBook.lookup (.keyID (e.keyID key)) with
    | none => rfl
    | some label => exact AList.lookup_insert _
  · have hne : k ≠ e.keyID key := fun heq => hk (heq ▸ List.mem_singleton_self _)
    refine ⟨AList.lookup_insert_ne hne, AList.lookup_insert_ne hne, ?_⟩
    dsimp only
    split
    · exact AList.lookup_insert_ne fun heq => hne (CTxDestination.keyID.inj heq)
    · rfl
  · dsimp only
    split
    · exact AList.lookup_insert_ne nofun
    · rfl

/-- **A run of the import**, by one key after the other. -/
theorem imports_run (htakes : e.Takes) {l : List (CKeyID × Int × (Bytes 32 × Bool))} {s : Importing e.keyID}
    (hid : ∀ d ∈ l, e.keyID d.2.2 = d.1) (hnew : ∀ d ∈ l, d.1 ∉ s.w.mapKeys) (hnodup : (l.map Prod.fst).Nodup) :
    Imports w l s ((l.map (ofDumped w)).foldl e.importKey s) := by
  induction l generalizing s with
  | nil => exact ⟨rfl, nofun, nofun, nofun, fun _ _ => ⟨rfl, rfl, rfl⟩, fun _ => rfl⟩
  | cons d l ih =>
    obtain ⟨hid, hids⟩ := List.forall_mem_cons.mp hid
    obtain ⟨hnew, hnews⟩ := List.forall_mem_cons.mp hnew
    obtain ⟨hfresh, hnodup⟩ := List.nodup_cons.mp hnodup
    have hone := imports_one (w := w) htakes hid hnew
    have hother : ∀ d' ∈ l, d'.1 ∉ [d].map Prod.fst := fun d' hd' hmem =>
      hfresh (List.mem_singleton.mp hmem ▸ List.mem_map_of_mem hd')
    rw [List.map_cons, List.foldl_cons]
    generalize e.importKey s (ofDumped w d) = s' at hone ⊢
    have hrest := ih (s := s') hids (fun d' hd' hmem => by
      have hlookup := AList.lookup_isSome.mpr hmem
      rw [(hone.other d'.1 (hother d' hd')).1] at hlookup
      exact hnews d' hd' (AList.lookup_isSome.mp hlookup)) hnodup
    have hkept := hrest.other d.1 hfresh
    refine ⟨hrest.good.trans hone.good, ?_, ?_, ?_, fun k hk => ?_, fun id => (hrest.script id).trans (hone.script id)⟩
    · exact List.forall_mem_cons.mpr ⟨hkept.1.trans (hone.key d List.mem_cons_self), hrest.key⟩
    · exact List.forall_mem_cons.mpr ⟨hkept.2.1.trans (hone.time d List.mem_cons_self), hrest.time⟩
    · refine List.forall_mem_cons.mpr ⟨hkept.2.2.trans (hone.label d List.mem_cons_self), fun d' hd' => ?_⟩
      rw [hrest.label d' hd', (hone.other d'.1 (hother d' hd')).2.2]
    · rw [List.map_cons, List.mem_cons, not_or] at hk
      have hrest := hrest.other k hk.2
      have hone := hone.other k fun hmem => hk.1 (List.mem_singleton.mp hmem)
      exact ⟨hrest.1.trans hone.1, hrest.2.1.trans hone.2.1, hrest.2.2.trans hone.2.2⟩

/-- **A wallet is restored** in another: its keys with their forms, and their
labels and times, and nothing else. -/
structure Restores (e : DumpEnv) (w w' r : DumpWallet e.keyID) : Prop where
  keys : ∀ k, r.mapKeys.lookup k = (w.mapKeys.lookup k).or (w'.mapKeys.lookup k)
  times : ∀ k ∈ w.mapKeys, ∃ t, (e.getKeyBirthTimes w).lookup k = some t ∧ r.mapKeyMetadata.lookup k = some t
  labels : ∀ k ∈ w.mapKeys, r.mapAddressBook.lookup (.keyID k) =
    (w.mapAddressBook.lookup (.keyID k)).or (w'.mapAddressBook.lookup (.keyID k))
  others : ∀ k, k ∉ w.mapKeys → r.mapKeyMetadata.lookup k = w'.mapKeyMetadata.lookup k ∧
    r.mapAddressBook.lookup (.keyID k) = w'.mapAddressBook.lookup (.keyID k)
  scripts : ∀ id, r.mapAddressBook.lookup (.scriptID id) = w'.mapAddressBook.lookup (.scriptID id)

/-- **Dump and import are inverse**: imported in a wallet that has none of the
keys, a dump adds exactly these, and every byte string comes back. -/
theorem dump_import (e : DumpEnv) (w w' : DumpWallet e.keyID) (hprinted : e.Printed)
    (hexact : ∀ k t, (e.getKeyBirthTimes w).lookup k = some t → e.decodeDumpTime (e.encodeDumpTime t) = t)
    (htakes : e.Takes) (hnone : ∀ k ∈ w.mapKeys, k ∉ w'.mapKeys) :
    (e.importwallet w' (e.dumpwallet w)).fGood = true ∧
      e.Restores w w' (e.importwallet w' (e.dumpwallet w)).w ∧
      ∀ str, decodeDumpString (encodeDumpString str) = str := by
  have hkeys : ∀ k, k ∈ (e.dumped w).map Prod.fst ↔ k ∈ w.mapKeys := by
    intro k
    rw [List.mem_map]
    constructor
    · rintro ⟨d, hd, rfl⟩
      exact AList.lookup_isSome.mp ((mem_dumped.mp hd).2 ▸ rfl)
    · intro hk
      obtain ⟨key, hkey⟩ := Option.isSome_iff_exists.mp (AList.lookup_isSome.mpr hk)
      obtain ⟨t, ht⟩ := Option.isSome_iff_exists.mp (AList.lookup_isSome.mpr (mem_getKeyBirthTimes (e := e) hk))
      exact ⟨(k, t, key), mem_dumped.mpr ⟨ht, hkey⟩, rfl⟩
  have hrun := imports_run (w := w) htakes (s := ⟨w', true, e.pindexBest.nTime.toNat⟩)
    (fun d hd => w.keyed d.1 d.2.2 (mem_dumped.mp hd).2)
    (fun d hd => hnone d.1 ((hkeys d.1).mp (List.mem_map_of_mem hd))) nodup_dumped
  rw [importwallet_dumpwallet hprinted fun d hd => hexact d.1 d.2.1 (mem_dumped.mp hd).1]
  refine ⟨hrun.good, ⟨fun k => ?_, fun k hk => ?_, fun k hk => ?_, fun k hk => ?_, hrun.script⟩,
    decodeDumpString_encodeDumpString⟩
  · by_cases hk : k ∈ (e.dumped w).map Prod.fst
    · obtain ⟨d, hd, rfl⟩ := List.mem_map.mp hk
      rw [hrun.key d hd, (mem_dumped.mp hd).2, Option.some_or]
    · have hlookup : w.mapKeys.lookup k = none := AList.lookup_eq_none.mpr fun h => hk ((hkeys k).mpr h)
      rw [(hrun.other k hk).1, hlookup, Option.none_or]
  · obtain ⟨d, hd, rfl⟩ := List.mem_map.mp ((hkeys k).mpr hk)
    exact ⟨d.2.1, (mem_dumped.mp hd).1, hrun.time d hd⟩
  · obtain ⟨d, hd, rfl⟩ := List.mem_map.mp ((hkeys k).mpr hk)
    exact hrun.label d hd
  · exact (hrun.other k fun h => hk ((hkeys k).mp h)).2

end DumpEnv

/-! ## Two keys -/

namespace Sample

/-- The text of one time is that of the library, and the others are numbers. -/
def encodeTime (t : Int) : List UInt8 :=
  if t = 1500000000 then chars "2017-07-14T02:40:00Z" else Decimal.printInt t

def dumpEnv : DumpEnv where
  CLIENT_BUILD := chars "v2.2.3.0"
  CLIENT_DATE := chars "2018-08-24"
  adjustedTime := 1500000000
  nBestHeight := 7
  hashBestChain := 1
  pindexBest := ⟨7, 1500000000⟩
  pindexMax := ⟨0, 1486473000⟩
  fTestNet := false
  hash _ := List.Vector.replicate 32 0
  keyID key := List.Vector.replicate 20 (if key.2 then 1 else 2)
  extractAffectedKeys _ := []
  storeKey _ := true
  writeKey _ := true
  encodeDumpTime := encodeTime
  decodeDumpTime s := if s = chars "2017-07-14T02:40:00Z" then 1500000000 else 0

/-- One key is compressed and labelled, the other is not. -/
def dumpStore : KeyStore dumpEnv.keyID :=
  ((⟨∅, nofun⟩ : KeyStore dumpEnv.keyID).addKey (List.Vector.replicate 32 7, true)).addKey
    (List.Vector.replicate 32 9, false)

def dumpWallet : DumpWallet dumpEnv.keyID where
  toKeyStore := dumpStore
  mapKeyMetadata :=
    (AList.insert (List.Vector.replicate 20 1) 1500000000 ∅).insert (List.Vector.replicate 20 2) 1500000000
  mapAddressBook := AList.insert (.keyID (List.Vector.replicate 20 1)) (chars "label=# 100%") ∅
  setKeyPool := []
  mapWallet := []

def otherWallet : DumpWallet dumpEnv.keyID := ⟨⟨∅, nofun⟩, ∅, ∅, [], []⟩

theorem printed_dumpEnv : dumpEnv.Printed where
  build := by decide +kernel
  date := by decide +kernel
  time t := by
    show Solid (encodeTime t)
    unfold encodeTime
    split
    · decide +kernel
    · have hdigits : ∀ n, Solid (Decimal.print n) := fun n c hc => by
        have hdigit := Decimal.print_isDigit n c hc
        constructor <;> rintro rfl <;> exact absurd hdigit (by decide)
      unfold Decimal.printInt
      split
      · have hminus : Solid [45] := by
          intro c hc
          obtain rfl := List.mem_singleton.mp hc
          decide
        exact hminus.append (hdigits _)
      · exact hdigits _

theorem births_dumpWallet {k : CKeyID} {t : Int} (h : (dumpEnv.getKeyBirthTimes dumpWallet).lookup k = some t) :
    t = 1500000000 := by
  have hall : (dumpEnv.getKeyBirthTimes dumpWallet).entries.all (fun it => decide (it.2 = 1500000000)) = true := by
    decide +kernel
  exact of_decide_eq_true (List.all_eq_true.mp hall ⟨k, t⟩ (AList.mem_lookup_iff.mp h))

end Sample

open Sample in
theorem DumpEnv.dump_import_sample :
    (dumpEnv.importwallet otherWallet (dumpEnv.dumpwallet dumpWallet)).fGood = true ∧
      dumpEnv.Restores dumpWallet otherWallet (dumpEnv.importwallet otherWallet (dumpEnv.dumpwallet dumpWallet)).w ∧
      ∀ str, decodeDumpString (encodeDumpString str) = str :=
  DumpEnv.dump_import dumpEnv dumpWallet otherWallet printed_dumpEnv
    (fun _ _ h => births_dumpWallet h ▸ by decide +kernel) ⟨fun _ => rfl, fun _ => rfl⟩
    (fun _ _ => AList.notMem_empty _)

end Pinkcoin
