/-
The money supply in the record of the tip and the outputs the transaction
index has as unspent, whose values are read from the block files.
-/
import Pinkcoin.TipAgrees

namespace Pinkcoin

open StateError
open Node (Stored Connected Follows Tip HashesApart Lies nominalValue nominalValue_eq)

/-! ## What the index has as unspent -/

/-- A record of the database that is one of the transaction index. -/
def CTxDB.txEntry : Sigma DbKey.Value → Option (Uint256 × CTxIndex)
  | ⟨.tx hash, txindex⟩ => some (hash, txindex)
  | _ => none

/-- The entries of the transaction index. -/
def CTxDB.txEntries (txdb : CTxDB) : List (Uint256 × CTxIndex) := txdb.base.entries.filterMap CTxDB.txEntry

namespace Node

/-- The value of an output of a transaction of the index, as it is on disk. -/
def outputValue (s : Node) (txindex : CTxIndex) (n : ℕ) : Int :=
  (((txindex.pos.bind s.disk.tx).bind fun tx => tx.vout[n]?).map CTxOut.nValue).getD 0

/-- The sum of `nValue` over all outputs in the index whose slot is null. -/
def unspentValue (s : Node) : Int :=
  (s.txdb.txEntries.map fun e => Ledger.emptyValue (s.outputValue e.2) e.2.vSpent 0).sum

end Node

theorem mem_txEntries {txdb : CTxDB} (hb : txdb.batch = none) {h : Uint256} {e : CTxIndex} :
    (h, e) ∈ txdb.txEntries ↔ txdb.readTxIndex h = some e := by
  rw [CTxDB.readTxIndex, BatchStore.read_of_no_batch hb, ← Option.mem_def, AList.mem_lookup_iff, CTxDB.txEntries,
    List.mem_filterMap]
  constructor
  · rintro ⟨⟨k, v⟩, hmem, hk⟩
    cases k with
    | tx hash =>
      obtain ⟨rfl, rfl⟩ := Prod.mk.inj (Option.some.inj hk)
      exact hmem
    | _ => simp [CTxDB.txEntry] at hk
  · intro hmem
    exact ⟨⟨.tx h, e⟩, hmem, rfl⟩

theorem nodup_txEntries (txdb : CTxDB) : (txdb.txEntries.map Prod.fst).Nodup := by
  have hnd : (txdb.base.entries.map Sigma.fst).Nodup := txdb.base.nodupKeys
  rw [CTxDB.txEntries]
  generalize txdb.base.entries = entries at hnd ⊢
  induction entries with
  | nil => simp
  | cons x l ih =>
    rw [List.map_cons, List.nodup_cons] at hnd
    obtain ⟨k, v⟩ := x
    cases k with
    | tx hash =>
      rw [List.filterMap_cons_some (show CTxDB.txEntry ⟨.tx hash, v⟩ = some (hash, v) from rfl), List.map_cons, List.nodup_cons]
      refine ⟨fun hmem => hnd.1 ?_, ih hnd.2⟩
      obtain ⟨⟨h, e⟩, hin, rfl⟩ := List.mem_map.mp hmem
      obtain ⟨⟨k', v'⟩, hin', hk⟩ := List.mem_filterMap.mp hin
      cases k' with
      | tx hash' =>
        obtain ⟨rfl, -⟩ := Prod.mk.inj (Option.some.inj hk)
        exact List.mem_map.mpr ⟨_, hin', rfl⟩
      | _ => simp [CTxDB.txEntry] at hk
    | _ => exact ih hnd.2

variable {P : Params} {T : CTransaction → Prop} {s : Node} {t : Uint256}

/-- The values on disk are the nominal ones. -/
theorem outputValue_nominal (hT : HashesApart P T) (hs : Stored P T s) {h : Uint256} {e : CTxIndex}
    (he : s.ledger P t h = some e.entry) : s.outputValue e = nominalValue P T h := by
  rcases Ledger.shape_connectAll he with ⟨u, hu, rfl, hshape⟩ | ⟨-, e₀, he₀, -⟩
  · obtain ⟨tx, pos, rfl, hdisk, htx, -⟩ := hs.lies hu
    have hpos : e.pos = some pos := congrArg Prod.fst hshape
    funext n
    rw [Node.outputValue, hpos, Option.bind_some, hdisk, Option.bind_some]
    exact (nominalValue_eq hT htx n).symm
  · simp at he₀

/-- **The sum over the entries is the value that is unspent in the ledger.** -/
theorem Node.Tip.unspentValue_eq (hT : HashesApart P T) (ht : Tip P T s t) :
    s.unspentValue = Node.unspentOf P T s t := by
  have hindex := ht.follows.connected.index
  have hentry : ∀ h e, (h, e) ∈ s.txdb.txEntries ↔ s.txdb.readTxIndex h = some e := fun h e => mem_txEntries ht.batch
  have hread : ∀ {h e}, (h, e) ∈ s.txdb.txEntries → s.ledger P t h = some e.entry := fun {h e} hmem => by
    rw [← hindex, CTxDB.book, (hentry h e).mp hmem]
    rfl
  -- each entry counts what its record in the ledger counts
  have hterm : ∀ x ∈ s.txdb.txEntries, Ledger.emptyValue (s.outputValue x.2) x.2.vSpent 0 =
      (s.ledger P t x.1).elim 0 fun e => Ledger.emptyValue (nominalValue P T x.1) e.spent 0 := by
    rintro ⟨h, e⟩ hmem
    rw [outputValue_nominal hT ht.follows.stored (hread hmem), hread hmem]
    rfl
  have hsum : s.unspentValue = Ledger.total (nominalValue P T) (s.ledger P t) (s.txdb.txEntries.map Prod.fst).toFinset := by
    rw [Node.unspentValue, Ledger.total, List.sum_toFinset _ (nodup_txEntries s.txdb), List.map_map]
    exact congrArg List.sum (List.map_congr_left hterm)
  rw [hsum]
  refine (Ledger.total_eq_of_cover (fun k hk => ?_) fun k hk => ?_).symm
  · obtain ⟨⟨h, e⟩, hmem, rfl⟩ := List.mem_map.mp (List.mem_toFinset.mp hk)
    have hne : s.ledger P t h ≠ none := by simp [hread hmem]
    obtain ⟨u, hu, hid⟩ := (Ledger.connectAll_ne_none.mp hne).resolve_left (by simp)
    exact Node.mem_ids.mpr ⟨u, hu, hid⟩
  · rw [← hindex, CTxDB.book, Option.map_eq_none_iff.ne] at hk
    obtain ⟨e, he⟩ := Option.ne_none_iff_exists'.mp hk
    exact List.mem_toFinset.mpr (List.mem_map.mpr ⟨(k, e), (hentry k e).mpr he, rfl⟩)

/-! ## The supply at the tip -/

/-- The supply in the tip's record is the value of the unspent outputs in the
index, and the index holds every transaction the main chain has connected with
one slot for each of its outputs. -/
structure SupplyIsUnspent (P : Params) (s : Node) : Prop where
  supply : s.best.map CBlockIndex.nMoneySupply = some s.unspentValue
  slots : ∀ h ∈ s.mapBlockIndex.chain s.hashBestChain, ∀ b p block, s.mapBlockIndex.find h = some b → b.pprev = some p →
    s.blockAt h = some block → ∀ tx ∈ block.vtx, ∃ txindex, s.txdb.readTxIndex (tx.getHash P) = some txindex ∧
      txindex.vSpent.length = tx.vout.length

/-- A transaction of the chain has an entry, and it has a slot for each of its
outputs. -/
theorem Node.Tip.slots (hT : HashesApart P T) (ht : Tip P T s t) {h p : Uint256} {b : CBlockIndex} {block : CBlock}
    (hh : h ∈ s.mapBlockIndex.chain t) (hb : s.mapBlockIndex.find h = some b) (hp : b.pprev = some p)
    (hblock : s.blockAt h = some block) {tx : CTransaction} (htx : tx ∈ block.vtx) :
    ∃ txindex, s.txdb.readTxIndex (tx.getHash P) = some txindex ∧ txindex.vSpent.length = tx.vout.length := by
  have hs := ht.follows.stored
  obtain ⟨block', hdisk, -, hall⟩ := hs.onDisk h b hb
  obtain rfl : block = block' := by simpa [Node.blockAt, hb, hdisk] using hblock.symm
  -- the transaction is one of the chain
  obtain ⟨pre, post, hv⟩ := List.append_of_mem htx
  have hmem : tx.ledgerTx P ⟨b.nFile, b.nBlockPos, b.nBlockPos + block.firstTxOffset +
      (pre.map CTransaction.getSerializeSize).sum⟩ ∈ s.chainTxs P t := by
    refine Node.mem_chainTxs.mpr ⟨h, hh, ?_⟩
    rw [Node.txsOf_of_pprev hb hp hdisk, CBlock.ledgerTxs, hv, ledgerTxs_append]
    exact List.mem_append_right _ List.mem_cons_self
  have hne : s.ledger P t (tx.getHash P) ≠ none := Ledger.connectAll_ne_none.mpr (.inr ⟨_, hmem, rfl⟩)
  obtain ⟨entry, hentry⟩ := Option.ne_none_iff_exists'.mp hne
  have hread := hentry
  rw [← ht.follows.connected.index, CTxDB.book, Option.map_eq_some_iff] at hread
  obtain ⟨txindex, hread, rfl⟩ := hread
  refine ⟨txindex, hread, ?_⟩
  -- the entry is that of a transaction with this hash, which is this one
  rcases Ledger.shape_connectAll hentry with ⟨u, hu, hid, hshape⟩ | ⟨-, e₀, he₀, -⟩
  · obtain ⟨tx', pos, rfl, -, hTx', -⟩ := hs.lies hu
    obtain rfl : tx' = tx := hT _ _ hTx' ((hall p hp).2.2 tx htx) hid
    exact congrArg Prod.snd hshape
  · simp at he₀

/-- **The supply counter.** In every run in which no call of `SetBestChain`
stops half-way, the supply in the tip's record is what is unspent in the
transaction index. -/
theorem Reach.supplyIsUnspent (hT : HashesApart P T)
    (hr : Reach P T (fun env block h s => branchAttaches P env block h s) s) : SupplyIsUnspent P s := by
  obtain ⟨t, ht⟩ := hr.tip hT
  obtain ⟨b, hbest, hb⟩ := ht.best
  refine ⟨?_, fun h hh b p block hb hp hblock tx htx => ?_⟩
  · rw [hbest, Option.map_some, ht.unspentValue_eq hT,
      ht.follows.connected.supply t (Forest.self_mem_chain t) b hb]
  · rw [ht.hashBestChain] at hh
    exact ht.slots hT hh hb hp hblock htx

/-- After the side chain is connected to its third block. -/
theorem Reach.supplyIsUnspent_sample :
    let P := Sample.params true
    let calls := Sample.switched 0 ++ [.best (Sample.sideBlock 3 0)]
    SupplyIsUnspent P (Sample.play P calls (Sample.fresh true)) := by
  intro P calls
  refine Reach.supplyIsUnspent (T := (· ∈ Sample.transactions calls)) (fun a b ha hb => ?_) ?_
  · exact (by decide +kernel : ∀ a ∈ Sample.transactions calls, ∀ b ∈ Sample.transactions calls,
      a.getHash P = b.getHash P → a = b) a ha b hb
  · exact Sample.reach_play (c := fun block s => branchAttaches P Sample.env block (block.getHash P) s) (fun _ _ h => h)
      (fun call hcall tx htx => List.mem_flatMap.mpr ⟨call, hcall, htx⟩) Sample.reach_fresh (by decide +kernel)

/-- When the loop stops before the third block, that block is the tip with no
supply, and the coin of the first is unspent. -/
theorem supply_half_way :
    let P := Sample.params true
    let calls := Sample.switched 1 ++ [.best (Sample.sideBlock 3 1)]
    ∃ s, Reach P (· ∈ Sample.transactions calls) (fun _ _ _ _ => True) s ∧
      HashesApart P (· ∈ Sample.transactions calls) ∧ ¬ SupplyIsUnspent P s := by
  intro P calls
  refine ⟨Sample.play P calls (Sample.fresh true), ?_, fun a b ha hb => ?_, fun hs => ?_⟩
  · exact Sample.reach_play (c := fun _ _ => true) (fun _ _ _ => trivial)
      (fun call hcall tx htx => List.mem_flatMap.mpr ⟨call, hcall, htx⟩) Sample.reach_fresh (by decide +kernel)
  · exact (by decide +kernel : ∀ a ∈ Sample.transactions calls, ∀ b ∈ Sample.transactions calls,
      a.getHash P = b.getHash P → a = b) a ha b hb
  · exact absurd hs.supply (by decide +kernel)

end Pinkcoin
