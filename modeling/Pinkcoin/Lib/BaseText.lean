/-
Texts to a base: the bits of some bytes, cut into digits, each digit written
as a letter, and padding behind them where the last digit is not full. Writer
and reader are machines with a few bits in hand; what they are known to do one
step at a time makes them inverse to each other.
-/
import Mathlib.Data.List.Basic
import Mathlib.Data.List.TakeWhile
import Pinkcoin.Lib.BitGroups

namespace BaseText

open BitGroups

/-! ## Bases -/

/-- A base: the letters, the digit of a character (`-1` of one that is no
letter), the two machines with what they hold in hand, and what follows the
digits. -/
structure Base where
  bits : Nat
  letter : Nat → UInt8
  table : UInt8 → Int
  padding : UInt8
  encode : Nat × Nat → Nat → List Nat × (Nat × Nat)
  nPadding : Nat → Nat
  decode : Nat × Nat → Nat → List Nat × (Nat × Nat)
  invalid : Nat × Nat → List UInt8 → Bool

namespace Base

variable (B : Base)

/-- The text of some bytes. -/
def encodeText (bytes : List UInt8) : List UInt8 :=
  let (places, mode, left) := emit B.encode (0, 0) (bytes.map UInt8.toNat)
  places.map B.letter ++ if mode = 0 then [] else B.letter left :: List.replicate (B.nPadding mode) B.padding

/-- The letters at the start of a text are read, up to the first character
that is none. -/
def readLetters : Nat × Nat → List UInt8 → List Nat × (Nat × Nat) × List UInt8
  | s, [] => ([], s, [])
  | s, c :: p =>
    if B.table c = -1 then ([], s, c :: p)
    else
      let (out, s') := B.decode s (B.table c).toNat
      let (more, s'', rest) := readLetters s' p
      (out ++ more, s'', rest)

/-- The bytes of a text, and whether it is invalid. -/
def decodeText (p : List UInt8) : List UInt8 × Bool :=
  let (out, s, rest) := B.readLetters (0, 0) p
  (out.map UInt8.ofNat, B.invalid s rest)

/-- The text does not go on with a letter. -/
def Ends (t : List UInt8) : Prop := ∀ c ∈ t.head?, B.table c = -1

/-- There are `n` characters of padding, and no letter follows them. Past the
end of a text a zero is read. -/
def padded (n : Nat) (p : List UInt8) : Bool :=
  (List.range n).all (fun i => p.getD i 0 == B.padding) && B.table (p.getD n 0) == -1

theorem padded_iff (hzero : B.table 0 = -1) (hpadding : B.padding ≠ 0) (n : Nat) (p : List UInt8) :
    B.padded n p = true ↔ ∃ t, B.Ends t ∧ p = List.replicate n B.padding ++ t := by
  simp only [padded, Bool.and_eq_true, List.all_eq_true, List.mem_range, beq_iff_eq]
  induction n generalizing p with
  | zero =>
    cases p with
    | nil => exact iff_of_true ⟨fun i hi => absurd hi (Nat.not_lt_zero i), hzero⟩ ⟨[], nofun, rfl⟩
    | cons c p =>
      constructor
      · intro h
        exact ⟨c :: p, fun c' hc' => Option.some.inj hc' ▸ h.2, rfl⟩
      · intro ⟨t, ht, heq⟩
        obtain rfl : c :: p = t := heq
        exact ⟨fun i hi => absurd hi (Nat.not_lt_zero i), ht c rfl⟩
  | succ n ih =>
    cases p with
    | nil =>
      refine iff_of_false (fun h => hpadding (h.1 0 (Nat.succ_pos n)).symm) fun ⟨t, _, heq⟩ => ?_
      rw [List.replicate_succ, List.cons_append] at heq
      cases heq
    | cons c p =>
      have hrest := ih p
      constructor
      · intro ⟨hall, hlast⟩
        obtain ⟨t, ht, rfl⟩ := hrest.mp ⟨fun i hi => hall (i + 1) (Nat.succ_lt_succ hi), hlast⟩
        exact ⟨t, ht, by rw [List.replicate_succ, List.cons_append, ← hall 0 (Nat.succ_pos n)]; rfl⟩
      · intro ⟨t, ht, heq⟩
        obtain ⟨rfl, rfl⟩ := List.cons.inj heq
        obtain ⟨hall, hlast⟩ := hrest.mpr ⟨t, ht, rfl⟩
        refine ⟨fun i hi => ?_, hlast⟩
        cases i with
        | zero => rfl
        | succ i => exact hall i (Nat.lt_of_succ_lt_succ hi)

/-- The check of the last digit and the padding, in terms of the bits in
hand. -/
theorem checked_iff (hzero : B.table 0 = -1) (hpadding : B.padding ≠ 0) {pads : Nat → Option Nat} {n m left : Nat}
    (hpads : pads n = some m) (hleft : left < 2 ^ n) (p : List UInt8) :
    (left != 0 || !B.padded m p) = false ↔ ∃ k, pads (toBits n left).length = some k ∧
      toBits n left = List.replicate (toBits n left).length false ∧ ∃ t, B.Ends t ∧ p = List.replicate k B.padding ++ t := by
  rw [length_toBits, toBits_eq_zeros_iff, Nat.mod_eq_of_lt hleft, hpads]
  simp [← B.padded_iff hzero hpadding]

/-- **What is required of a base**: `Carried` and `Held` say which bits writer
and reader have in hand, `pads` how much padding there is for a number of
unused bits. -/
structure Lawful (fold : UInt8 → UInt8) (pads : Nat → Option Nat) (Carried Held : Nat × Nat → List Bool → Prop) : Prop where
  bits_le : B.bits ≤ 8
  table_letter : ∀ d < 2 ^ B.bits, B.table (B.letter d) = d
  letter_table : ∀ c, B.table c ≠ -1 → (B.table c).toNat < 2 ^ B.bits ∧ B.letter (B.table c).toNat = fold c
  table_padding : B.table B.padding = -1
  fold_padding : fold B.padding = B.padding
  pads_zero : pads 0 = some 0
  pads_lt : ∀ {u n}, pads u = some n → u < B.bits
  carried_start : Carried (0, 0) []
  held_start : Held (0, 0) []
  encodes : Regroups 8 B.bits B.encode Carried
  decodes : Regroups B.bits 8 B.decode Held
  /-- What the writer has in hand fills one digit more. -/
  carried : ∀ {mode left b}, Carried (mode, left) b → mode = 0 ∧ b = [] ∨
    mode ≠ 0 ∧ left < 2 ^ B.bits ∧ ∃ u, b.length + u = B.bits ∧ toBits B.bits left = b ++ List.replicate u false ∧
      pads u = some (B.nPadding mode)
  held_lt : ∀ {s b}, Held s b → b.length < 8
  /-- What the reader checks. -/
  invalid : ∀ {s b p}, Held s b → B.Ends p → (B.invalid s p = false ↔
    ∃ n, pads b.length = some n ∧ b = List.replicate b.length false ∧ ∃ t, B.Ends t ∧ p = List.replicate n B.padding ++ t)

/-! ## The digits of a text -/

/-- The digits some letters stand for. -/
def digits (body : List UInt8) : List Nat := body.map fun c => (B.table c).toNat

theorem readLetters_append {body rest : List UInt8} (hbody : ∀ c ∈ body, B.table c ≠ -1) (hrest : B.Ends rest) (s : Nat × Nat) :
    B.readLetters s (body ++ rest) = ((emit B.decode s (B.digits body)).1, (emit B.decode s (B.digits body)).2, rest) := by
  induction body generalizing s with
  | nil =>
    cases rest with
    | nil => rfl
    | cons c rest => exact if_pos (hrest c rfl)
  | cons c body ih =>
    have hc : B.table c ≠ -1 := hbody c List.mem_cons_self
    have hmore := ih (fun c h => hbody c (List.mem_cons_of_mem _ h)) (B.decode s (B.table c).toNat).2
    simp only [List.cons_append, readLetters, if_neg hc, hmore]
    rfl

/-- Every text is letters and what ends them. -/
theorem exists_letters (s : List UInt8) : ∃ body rest, s = body ++ rest ∧ (∀ c ∈ body, B.table c ≠ -1) ∧ B.Ends rest := by
  refine ⟨s.takeWhile (B.table · ≠ -1), s.dropWhile (B.table · ≠ -1), List.takeWhile_append_dropWhile.symm, fun c hc => ?_,
    fun c hc => ?_⟩
  · simpa using List.mem_takeWhile_imp hc
  · have := List.head?_dropWhile_not (fun c => decide (B.table c ≠ -1)) s
    rw [Option.mem_def.mp hc] at this
    simpa using this

/-- A number of digits whose bits are those of the bytes, but for fewer unused
bits at the end than a digit has, with the padding that follows them. -/
structure Spells (pads : Nat → Option Nat) (bytes : List UInt8) (ds : List Nat) (n : Nat) : Prop where
  bound : ∀ d ∈ ds, d < 2 ^ B.bits
  filled : ∃ u, pads u = some n ∧ bitsOf B.bits ds = bitsOf 8 (bytes.map UInt8.toNat) ++ List.replicate u false

/-- A text that is a whole number of bytes: letters, of which the last has no
bit set that is not used, and the padding that belongs to their number. -/
structure Whole (pads : Nat → Option Nat) (body : List UInt8) (n : Nat) : Prop where
  letters : ∀ c ∈ body, B.table c ≠ -1
  padded : pads (B.bits * body.length % 8) = some n
  unused : ∀ c ∈ body.getLast?, (B.table c).toNat % 2 ^ (B.bits * body.length % 8) = 0

/-- Something stands behind a whole text, and it does not start with a
letter. -/
def Continued (pads : Nat → Option Nat) (s : List UInt8) : Prop :=
  ∃ body n c t, B.Whole pads body n ∧ B.table c = -1 ∧ s = body ++ List.replicate n B.padding ++ c :: t

end Base

theorem toNat_lt_of_mem {bytes : List UInt8} {x : Nat} (h : x ∈ bytes.map UInt8.toNat) : x < 2 ^ 8 := by
  obtain ⟨b, -, rfl⟩ := List.mem_map.mp h
  exact b.toNat_lt

theorem map_toNat_inj {bytes bytes' : List UInt8} (h : bytes.map UInt8.toNat = bytes'.map UInt8.toNat) : bytes = bytes' :=
  List.map_injective_iff.mpr (fun _ _ h => UInt8.toNat_inj.mp h) h

namespace Base

section Lawful

variable {B : Base} {fold : UInt8 → UInt8} {pads : Nat → Option Nat} {Carried Held : Nat × Nat → List Bool → Prop}
  (hB : B.Lawful fold pads Carried Held) {bytes bytes' body : List UInt8} {ds ds' : List Nat} {n n' : Nat}

include hB

theorem Spells.digits_eq (h : B.Spells pads bytes ds n) (h' : B.Spells pads bytes ds' n') : ds = ds' ∧ n = n' := by
  obtain ⟨u, hpad, hbits⟩ := h.filled
  obtain ⟨u', hpad', hbits'⟩ := h'.filled
  -- both have the same bits once each is filled up with the other's unused ones
  have hsame : bitsOf B.bits ds ++ List.replicate u' false = bitsOf B.bits ds' ++ List.replicate u false := by
    rw [hbits, hbits', List.append_assoc, List.append_assoc, List.replicate_append_replicate,
      List.replicate_append_replicate, Nat.add_comm]
  obtain ⟨hds, hu⟩ := eq_of_bitsOf_append h.bound h'.bound (by simpa using hB.pads_lt hpad') (by simpa using hB.pads_lt hpad) hsame
  have huu : u' = u := by simpa using congrArg List.length hu
  rw [huu, hpad] at hpad'
  exact ⟨hds, Option.some.inj hpad'⟩

theorem Spells.bytes_eq (h : B.Spells pads bytes ds n) (h' : B.Spells pads bytes' ds n') : bytes = bytes' := by
  obtain ⟨u, hpad, hbits⟩ := h.filled
  obtain ⟨u', hpad', hbits'⟩ := h'.filled
  have hle := hB.bits_le
  have hu := hB.pads_lt hpad
  have hu' := hB.pads_lt hpad'
  exact map_toNat_inj (eq_of_bitsOf_append (fun _ => toNat_lt_of_mem) (fun _ => toNat_lt_of_mem) (by simp; omega)
    (by simp; omega) (hbits.symm.trans hbits')).1

/-! ## Writing -/

/-- **What is written**: the digits that spell the bytes, and their padding. -/
theorem encodeText_spells (bytes : List UInt8) :
    ∃ ds n, B.Spells pads bytes ds n ∧ B.encodeText bytes = ds.map B.letter ++ List.replicate n B.padding := by
  have hbytes : ∀ x ∈ bytes.map UInt8.toNat, x < 2 ^ 8 := fun _ => toNat_lt_of_mem
  obtain ⟨hbound, b, hend, hbits⟩ := hB.encodes.run hB.carried_start hbytes
  unfold encodeText
  generalize emit B.encode (0, 0) (bytes.map UInt8.toNat) = run at *
  obtain ⟨places, mode, left⟩ := run
  rcases hB.carried hend with ⟨rfl, rfl⟩ | ⟨hmode, hleft, u, hu, hlast, hpad⟩
  · exact ⟨places, 0, ⟨hbound, 0, hB.pads_zero, by simpa using hbits⟩, by simp⟩
  · refine ⟨places ++ [left], B.nPadding mode, ⟨fun d hd => ?_, u, hpad, ?_⟩, by simp [hmode]⟩
    · rcases List.mem_append.mp hd with hd | hd
      · exact hbound d hd
      · rwa [List.mem_singleton.mp hd]
    · simpa [hlast] using congrArg (· ++ List.replicate u false) hbits

theorem encodeText_of_spells (h : B.Spells pads bytes ds n) :
    B.encodeText bytes = ds.map B.letter ++ List.replicate n B.padding := by
  obtain ⟨ds', n', h', htext⟩ := encodeText_spells hB bytes
  obtain ⟨rfl, rfl⟩ := h.digits_eq hB h'
  exact htext

/-! ## Reading -/

theorem digits_lt (hbody : ∀ c ∈ body, B.table c ≠ -1) : ∀ d ∈ B.digits body, d < 2 ^ B.bits := by
  intro d hd
  obtain ⟨c, hc, rfl⟩ := List.mem_map.mp hd
  exact (hB.letter_table c (hbody c hc)).1

/-- The bits in hand at the end are the last ones of the last digit. -/
theorem held_eq_zeros_iff {out : List Nat} {held : List Bool} (hbits : bitsOf 8 out ++ held = bitsOf B.bits ds)
    (hpad : pads held.length = some n) :
    held = List.replicate held.length false ↔ ∀ d ∈ ds.getLast?, d % 2 ^ held.length = 0 := by
  rcases List.eq_nil_or_concat ds with rfl | ⟨init, d, rfl⟩
  · have hnil : held = [] := (List.append_eq_nil_iff.mp hbits).2
    simp [hnil]
  · have hlt := hB.pads_lt hpad
    obtain ⟨m, hm⟩ : ∃ m, B.bits = m + held.length := ⟨B.bits - held.length, by omega⟩
    have hsplit : bitsOf 8 out ++ held =
        bitsOf B.bits init ++ toBits m (d >>> held.length) ++ toBits held.length d := by
      rw [hbits, List.append_assoc, ← toBits_add, ← hm]
      simp
    have hheld : held = toBits held.length d := (List.append_inj' hsplit (by simp)).2
    rw [List.concat_eq_append, List.getLast?_concat]
    simp only [Option.mem_def, Option.some.injEq, forall_eq']
    rw [← toBits_eq_zeros_iff, ← hheld]

/-- What is read of letters with something that ends them. -/
theorem decodeText_append (hbody : ∀ c ∈ body, B.table c ≠ -1) {rest : List UInt8} (hrest : B.Ends rest) :
    ((B.decodeText (body ++ rest)).2 = false ↔ ∃ n t, B.Whole pads body n ∧ B.Ends t ∧ rest = List.replicate n B.padding ++ t) ∧
      ∀ n, B.Whole pads body n → B.Spells pads (B.decodeText (body ++ rest)).1 (B.digits body) n := by
  obtain ⟨hout, held, hheld, hbits⟩ := hB.decodes.run hB.held_start (digits_lt hB hbody)
  rw [List.nil_append] at hbits
  have hread := B.readLetters_append hbody hrest (0, 0)
  have hlt := hB.held_lt hheld
  have hlen : held.length = B.bits * body.length % 8 := by
    have := congrArg List.length hbits
    simp only [List.length_append, length_bitsOf, digits, List.length_map] at this
    omega
  have hbytes : ((emit B.decode (0, 0) (B.digits body)).1.map UInt8.ofNat).map UInt8.toNat =
      (emit B.decode (0, 0) (B.digits body)).1 := by
    rw [List.map_map]
    refine (List.map_congr_left fun y hy => ?_).trans (List.map_id _)
    have := hout y hy
    simpa using this
  have hlast : ∀ {n}, pads held.length = some n → (held = List.replicate held.length false ↔
      ∀ c ∈ body.getLast?, (B.table c).toNat % 2 ^ held.length = 0) := by
    intro n hpad
    rw [held_eq_zeros_iff hB hbits hpad, digits, List.getLast?_map]
    cases body.getLast? <;> simp
  unfold decodeText
  rw [hread]
  refine ⟨(hB.invalid hheld hrest).trans ⟨?_, ?_⟩, fun n hwhole => ?_⟩
  · intro ⟨n, hpad, hzeros, t, ht, hrest⟩
    exact ⟨n, t, ⟨hbody, hlen ▸ hpad, hlen ▸ (hlast hpad).mp hzeros⟩, ht, hrest⟩
  · intro ⟨n, t, hwhole, ht, hrest⟩
    have hpad : pads held.length = some n := hlen ▸ hwhole.padded
    exact ⟨n, hpad, (hlast hpad).mpr (hlen ▸ hwhole.unused), t, ht, hrest⟩
  · have hpad : pads held.length = some n := hlen ▸ hwhole.padded
    have hzeros := (hlast hpad).mpr (hlen ▸ hwhole.unused)
    exact ⟨digits_lt hB hbody, held.length, hpad, by rw [hbytes, ← hbits, ← hzeros]⟩

theorem Ends.padded {t : List UInt8} (ht : B.Ends t) (n : Nat) : B.Ends (List.replicate n B.padding ++ t) := by
  cases n with
  | zero => exact ht
  | succ n =>
    intro c hc
    obtain rfl := Option.some.inj hc
    exact hB.table_padding

theorem Whole.valid (h : B.Whole pads body n) {t : List UInt8} (ht : B.Ends t) :
    (B.decodeText (body ++ List.replicate n B.padding ++ t)).2 = false := by
  rw [List.append_assoc]
  exact (decodeText_append hB h.letters (ht.padded hB n)).1.mpr ⟨n, t, h, ht, rfl⟩

/-- **A whole text is written again**, but for the case of its letters. -/
theorem Whole.encodeText_decodeText (h : B.Whole pads body n) {t : List UInt8} (ht : B.Ends t) :
    B.encodeText (B.decodeText (body ++ List.replicate n B.padding ++ t)).1 = (body ++ List.replicate n B.padding).map fold := by
  rw [List.append_assoc, encodeText_of_spells hB ((decodeText_append hB h.letters (ht.padded hB n)).2 n h), List.map_append,
    List.map_replicate, hB.fold_padding, digits, List.map_map]
  exact congrArg (· ++ _) (List.map_congr_left fun c hc => (hB.letter_table c (h.letters c hc)).2)

/-- What is written is read back. -/
theorem decodeText_encodeText (bytes : List UInt8) : B.decodeText (B.encodeText bytes) = (bytes, false) := by
  obtain ⟨ds, n, hspells, htext⟩ := encodeText_spells hB bytes
  have hvalues : ∀ d ∈ ds, B.table (B.letter d) = d := fun d hd => hB.table_letter d (hspells.bound d hd)
  have hletters : ∀ c ∈ ds.map B.letter, B.table c ≠ -1 := by
    intro c hc
    obtain ⟨d, hd, rfl⟩ := List.mem_map.mp hc
    rw [hvalues d hd]
    omega
  have hdigits : B.digits (ds.map B.letter) = ds := by
    rw [digits, List.map_map]
    refine (List.map_congr_left fun d hd => ?_).trans (List.map_id ds)
    simp [hvalues d hd]
  have hnil : B.Ends [] := nofun
  obtain ⟨u, hpad, hbits⟩ := hspells.filled
  have hu : u = B.bits * ds.length % 8 := by
    have := congrArg List.length hbits
    simp only [List.length_append, length_bitsOf, List.length_map, List.length_replicate] at this
    have := hB.pads_lt hpad
    have := hB.bits_le
    omega
  have hwhole : B.Whole pads (ds.map B.letter) n := by
    refine ⟨hletters, by rwa [List.length_map, ← hu], ?_⟩
    have hpadded : pads (List.replicate u false).length = some n := by simpa using hpad
    have hzeros := (held_eq_zeros_iff hB hbits.symm hpadded).mp (by simp)
    rw [List.length_map, ← hu, List.getLast?_map]
    intro c hc
    obtain ⟨d, hd, rfl⟩ := Option.map_eq_some_iff.mp hc
    rw [hvalues d (List.mem_of_getLast? hd)]
    simpa using hzeros d hd
  have hback := (decodeText_append hB hletters (hnil.padded hB n)).2 n hwhole
  have hvalid := hwhole.valid hB hnil
  rw [List.append_nil] at hback hvalid
  rw [hdigits] at hback
  rw [htext]
  exact Prod.ext (hback.bytes_eq hB hspells) hvalid

/-- **When reading is undone by writing**: exactly if nothing stands behind a
whole text. -/
theorem encodeText_decodeText_iff (s : List UInt8) :
    ((B.decodeText s).2 = false → B.encodeText (B.decodeText s).1 = s.map fold) ↔ ¬ B.Continued pads s := by
  constructor
  · intro hback hcont
    obtain ⟨body, n, c, t, hwhole, hc, rfl⟩ := hcont
    have hends : B.Ends (c :: t) := fun c' hc' => Option.some.inj hc' ▸ hc
    have heq := (hwhole.encodeText_decodeText hB hends).symm.trans (hback (hwhole.valid hB hends))
    simpa using congrArg List.length heq
  · intro hcont hvalid
    obtain ⟨body, rest, rfl, hbody, hrest⟩ := B.exists_letters s
    obtain ⟨n, t, hwhole, ht, rfl⟩ := (decodeText_append hB hbody hrest).1.mp hvalid
    cases t with
    | nil => simpa using hwhole.encodeText_decodeText hB ht
    | cons c t => exact absurd ⟨body, n, c, t, hwhole, ht c rfl, by rw [List.append_assoc]⟩ hcont

end Lawful

end Base

end BaseText
