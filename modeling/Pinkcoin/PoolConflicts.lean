/-
The memory pool and the main chain: no transaction of the pool spends what
the chain spends, nor what another one of the pool spends. Accepting a loose
transaction keeps this, and so does a reorganization, which takes out what
conflicts with the new branch. Attaching a block on top takes out the
block's own transactions only, so it keeps it where no other transaction of
the pool spends an input of the block.
-/
import Pinkcoin.PoolFacts
import Pinkcoin.Placement
import Pinkcoin.TipAgrees

namespace Pinkcoin

open StateError
open CTxMemPool (Spends Linked Sub Shrinks Knows)
open Node (Stored Connected Follows Tip AtTip Undone Inside Loose Steady HashesApart)
open Ledger (slot)

variable {P : Params} {T : CTransaction → Prop} {env : Env} {s s' : Node} {h t : Uint256} {block : CBlock}

/-! ## What the chain spends -/

theorem COutPoint.key_injective {o o' : COutPoint} (h : o.key = o'.key) : o = o' := by
  cases o; cases o'; simpa [COutPoint.key] using h

theorem mem_inputs {tx : CTransaction} {pos : CDiskTxPos} {o : COutPoint} (ho : o.key ∈ (tx.ledgerTx P pos).inputs) :
    Spends tx o := by
  obtain ⟨o', hmem, hkey⟩ := List.mem_map.mp ho
  obtain rfl := COutPoint.key_injective hkey
  rw [CTransaction.prevouts] at hmem
  split at hmem
  next => simp at hmem
  next =>
    obtain ⟨txin, ht, hto⟩ := List.mem_map.mp hmem
    exact ⟨txin, ht, hto⟩

/-- Only a coinbase has the null outpoint, and it spends nothing. -/
theorem inputs_of_spends {tx : CTransaction} {pos : CDiskTxPos} {o : COutPoint} (ho : Spends tx o) (hnull : ¬ o.isNull) :
    o.key ∈ (tx.ledgerTx P pos).inputs := by
  obtain ⟨txin, ht, rfl⟩ := ho
  refine List.mem_map.mpr ⟨txin.prevout, ?_, rfl⟩
  rw [CTransaction.prevouts, if_neg]
  · exact List.mem_map.mpr ⟨txin, ht, rfl⟩
  · rintro ⟨hlen, ⟨first, hfirst, hn⟩, -⟩
    obtain ⟨a, ha⟩ := List.length_eq_one_iff.mp hlen
    rw [ha, List.mem_singleton] at ht
    rw [ha, List.head?_cons, Option.mem_some_iff] at hfirst
    rw [ht, hfirst] at hnull
    exact hnull hn

/-! ## What the pool holds -/

/-- The pool is linked, its transactions are of `T` and spend real outpoints,
and none of those is spent by a transaction of the list. -/
structure CTxMemPool.Clean (P : Params) (T : CTransaction → Prop) (ts : List LedgerTx) (pool : CTxMemPool) : Prop where
  linked : Linked P pool
  mem : ∀ {h tx}, pool.lookup h = some tx → T tx
  real : ∀ {h tx o}, pool.lookup h = some tx → Spends tx o → ¬ o.isNull
  apart : ∀ {h tx o}, pool.lookup h = some tx → Spends tx o → ∀ u ∈ ts, o.key ∉ u.inputs

open CTxMemPool (Clean)

namespace CTxMemPool

variable {pool pool' : CTxMemPool} {ts us : List LedgerTx} {tx : CTransaction}

theorem Clean.mono (hc : Clean P T ts pool) (h : ∀ u ∈ us, u ∈ ts) : Clean P T us pool :=
  ⟨hc.linked, hc.mem, hc.real, fun hl ho u hu => hc.apart hl ho u (h u hu)⟩

theorem Clean.shrinks (hc : Clean P T ts pool) (hs : Shrinks P pool pool') : Clean P T ts pool' := by
  have hsub := hs.sub hc.linked
  exact ⟨hs.linked hc.linked, fun hl => hc.mem (hsub.tx hl), fun hl => hc.real (hsub.tx hl),
    fun hl => hc.apart (hsub.tx hl)⟩

theorem Clean.append (hc : Clean P T ts pool)
    (hus : ∀ {h tx o}, pool.lookup h = some tx → Spends tx o → ∀ u ∈ us, o.key ∉ u.inputs) : Clean P T (ts ++ us) pool := by
  refine ⟨hc.linked, hc.mem, hc.real, fun hl ho u hu => ?_⟩
  rcases List.mem_append.mp hu with hu | hu
  · exact hc.apart hl ho u hu
  · exact hus hl ho u hu

/-- A transaction of `T` is what the pool holds under its hash. -/
theorem Clean.knows (hT : HashesApart P T) (hc : Clean P T ts pool) (htx : T tx) : Knows P pool tx :=
  fun u hu => hT u tx (hc.mem hu) htx (hc.linked.hash hu)

/-! ## Attaching a block -/

/-- What in the pool spends an input of the block is the block's own
transaction. -/
def agrees (pool : CTxMemPool) (block : CBlock) : Bool :=
  block.vtx.all fun tx => tx.vin.all fun txin => (pool.spender txin.prevout).all fun u => decide (u = tx)

theorem agrees_spender (ha : pool.agrees block) (hl : Linked P pool) (htx : tx ∈ block.vtx) {o : COutPoint} (ho : Spends tx o)
    {h : Uint256} {u : CTransaction} (hu : pool.lookup h = some u) (huo : Spends u o) : u = tx := by
  obtain ⟨txin, ht, rfl⟩ := ho
  simp only [agrees, List.all_eq_true] at ha
  have hone := ha tx htx txin ht
  rw [hl.spender.mpr ⟨h, hu, huo⟩, Option.all_some, decide_eq_true_eq] at hone
  exact hone

/-- The transactions that are removed one after the other are gone. -/
theorem removeAll_spec (hT : HashesApart P T) {vtx : List CTransaction} (hc : Clean P T ts pool) (hvtx : ∀ tx ∈ vtx, T tx) :
    Shrinks P pool (vtx.foldl (fun pool tx => pool.remove P tx false) pool) ∧
      ∀ tx ∈ vtx, (vtx.foldl (fun pool tx => pool.remove P tx false) pool).lookup (tx.getHash P) = none := by
  induction vtx generalizing pool with
  | nil => exact ⟨.refl, by simp⟩
  | cons tx vtx ih =>
    have hone : Shrinks P pool (pool.remove P tx false) := shrinks_remove false fun _ => hc.knows hT (hvtx tx (by simp))
    have hc₁ := hc.shrinks hone
    obtain ⟨hrest, hgone⟩ := ih hc₁ fun u hu => hvtx u (by simp [hu])
    rw [List.foldl_cons]
    refine ⟨hone.trans hrest, fun u hu => ?_⟩
    rcases List.mem_cons.mp hu with rfl | hu
    · cases hlook : (vtx.foldl (fun pool tx => pool.remove P tx false) (pool.remove P u false)).lookup (u.getHash P) with
      | none => rfl
      | some v =>
        have hback := (hrest.sub hc₁.linked).tx hlook
        rw [(remove_gone false).1] at hback
        simp at hback
    · exact hgone u hu

/-- **A block is attached**: with its transactions taken out, the pool spends
nothing that the block spends, if what it spends agrees with the block. -/
theorem Clean.attach (hT : HashesApart P T) (hc : Clean P T ts pool) (hvtx : ∀ tx ∈ block.vtx, T tx) (ha : pool.agrees block)
    (nFile nBlockPos : Nat) :
    Clean P T (ts ++ block.ledgerTxs P nFile nBlockPos) (block.vtx.foldl (fun pool tx => pool.remove P tx false) pool) := by
  obtain ⟨hs, hgone⟩ := removeAll_spec hT hc hvtx
  refine (hc.shrinks hs).append fun {h u o} hu huo v hv hin => ?_
  obtain ⟨pre, tx, post, hvtx', rfl⟩ := mem_ledgerTxs hv
  have htx : tx ∈ block.vtx := by simp [hvtx']
  have hold := (hs.sub hc.linked).tx hu
  obtain rfl := agrees_spender ha hc.linked htx (mem_inputs hin) hold huo
  rw [← hc.linked.hash hold, hgone u htx] at hu
  simp at hu

/-! ## Dropping the transactions of a branch -/

theorem dropFromPool_spec (hT : HashesApart P T) (hc : Clean P T ts pool) (htx : T tx) :
    Shrinks P pool (dropFromPool P tx pool) ∧ ∀ o, Spends tx o → (dropFromPool P tx pool).mapNextTx.lookup o = none := by
  have hone : Shrinks P pool (pool.remove P tx false) := shrinks_remove false fun _ => hc.knows hT htx
  obtain ⟨hrest, hfree⟩ := removeConflicts_spec (P := P) tx (pool.remove P tx false)
  exact ⟨hone.trans hrest, hfree (hone.linked hc.linked) (remove_gone false).1⟩

/-- **The transactions of a branch are dropped** with all that conflicts with
them. -/
theorem Clean.drop (hT : HashesApart P T) {vDelete : List CTransaction} (hc : Clean P T ts pool) (hv : ∀ tx ∈ vDelete, T tx)
    (hus : ∀ u ∈ us, ∃ tx ∈ vDelete, ∀ o : COutPoint, o.key ∈ u.inputs → Spends tx o) :
    Clean P T (ts ++ us) (vDelete.foldl (fun pool tx => dropFromPool P tx pool) pool) := by
  suffices hall : Shrinks P pool (vDelete.foldl (fun pool tx => dropFromPool P tx pool) pool) ∧
      ∀ tx ∈ vDelete, ∀ o, Spends tx o →
        (vDelete.foldl (fun pool tx => dropFromPool P tx pool) pool).mapNextTx.lookup o = none by
    obtain ⟨hs, hfree⟩ := hall
    refine (hc.shrinks hs).append fun {h w o} hw hwo u hu hin => ?_
    obtain ⟨tx, htx, hspends⟩ := hus u hu
    obtain ⟨p, hp, -⟩ := (hs.linked hc.linked).complete hw hwo
    rw [hfree tx htx o (hspends o hin)] at hp
    simp at hp
  clear hus
  induction vDelete generalizing pool with
  | nil => exact ⟨.refl, by simp⟩
  | cons tx vDelete ih =>
    obtain ⟨hone, hfree⟩ := dropFromPool_spec hT hc (hv tx (by simp))
    have hc₁ := hc.shrinks hone
    obtain ⟨hrest, hall⟩ := ih hc₁ fun u hu => hv u (by simp [hu])
    rw [List.foldl_cons]
    refine ⟨hone.trans hrest, fun u hu o ho => ?_⟩
    rcases List.mem_cons.mp hu with rfl | hu
    · cases hp : (vDelete.foldl (fun pool tx => dropFromPool P tx pool) (dropFromPool P u pool)).mapNextTx.lookup o with
      | none => rfl
      | some p =>
        have hback := (hrest.sub hc₁.linked).next hp
        rw [hfree o ho] at hback
        simp at hback
    · exact hall u hu o ho

end CTxMemPool

/-! ## A loose transaction -/

/-- What is fetched for a loose transaction has the slots of the database, or
comes from the pool and is not in the database. -/
theorem fetchPrev_slot {hash : Uint256} {prev : CTxIndex × CTransaction} {n : Nat} {p : CDiskTxPos}
    (h : CTransaction.fetchPrev env s ∅ false false hash = .ok prev)
    (hslot : slot s.txdb.book (hash, n) = some (some p)) : prev.1.vSpent[n]? = some (some p) := by
  simp only [slot, CTxDB.book, Option.bind_eq_some_iff, Option.map_eq_some_iff] at hslot
  obtain ⟨e, ⟨txindex, hread, rfl⟩, hn⟩ := hslot
  simp only [CTransaction.fetchPrev, Bool.or_self, Bool.false_eq_true, if_false, hread, Option.none_or] at h
  split at h
  next =>
    split at h
    next => simp at h
    next => exact (except_pure_ok.mp h) ▸ hn
  next =>
    split at h
    next => simp at h
    next => exact (except_pure_ok.mp h) ▸ hn

/-- The second loop of `ConnectInputs` meets no spent slot. -/
theorem spendInputs_unspent {posThisTx : CDiskTxPos} {fBlock fMiner : Bool} {tx : CTransaction} {vin : List CTxIn} {i : Nat}
    {inputs : MapPrevTx} {queue queue' : Map Uint256 CTxIndex}
    (h : CTransaction.spendInputs P s posThisTx fBlock fMiner tx vin i inputs queue = .ok queue') :
    ∀ txin ∈ vin, ∃ prev, inputs.lookup txin.prevout.hash = some prev ∧
      ∀ p, prev.1.vSpent[txin.prevout.n]? ≠ some (some p) := by
  induction vin generalizing i inputs queue with
  | nil => simp
  | cons txin vin ih =>
    simp only [CTransaction.spendInputs] at h
    split at h
    next => simp at h
    next txindex txPrev hlook =>
      simp only [except_bind_ok, except_rejectIf_ok] at h
      obtain ⟨-, hspent, -, -, h⟩ := h
      have hhead : ∀ p, txindex.vSpent[txin.prevout.n]? ≠ some (some p) := fun p hp => hspent ⟨some p, hp, rfl⟩
      refine List.forall_mem_cons.mpr ⟨⟨_, hlook, hhead⟩, fun u hu => ?_⟩
      obtain ⟨prev, hprev, hfree⟩ := ih h u hu
      by_cases hh : u.prevout.hash = txin.prevout.hash
      · rw [hh, AList.lookup_insert, Option.some.injEq] at hprev
        refine ⟨_, by rw [hh]; exact hlook, fun p hp => ?_⟩
        by_cases hn : txin.prevout.n = u.prevout.n
        · exact hhead p (hn ▸ hp)
        · refine hfree p ?_
          rw [← hprev]
          change (txindex.vSpent.set txin.prevout.n (some posThisTx))[u.prevout.n]? = some (some p)
          rw [List.getElem?_set_ne hn]
          exact hp
      · rw [AList.lookup_insert_ne hh] at hprev
        exact ⟨prev, hprev, hfree⟩

/-- What `accept` has checked of a transaction it lets into the pool. -/
structure Acceptable (P : Params) (s : Node) (tx : CTransaction) : Prop where
  new : s.mempool.lookup (tx.getHash P) = none
  free : ∀ txin ∈ tx.vin, s.mempool.mapNextTx.lookup txin.prevout = none
  real : ∀ o, Spends tx o → ¬ o.isNull
  unspent : ∀ o, Spends tx o → ∀ p, slot s.txdb.book o.key ≠ some (some p)

theorem acceptChecks_ok {tx : CTransaction} {u : Unit} (h : acceptChecks P env s tx = .ok u) : Acceptable P s tx := by
  simp only [acceptChecks, except_bind_ok, except_mapError_ok, except_rejectIf_ok] at h
  obtain ⟨_, hcheck, _, hcb, _, -, _, -, _, hnew, _, -, _, hfree, h⟩ := h
  have hreal : ∀ txin ∈ tx.vin, ¬ txin.prevout.isNull := by
    simp only [CTransaction.checkTransaction, except_bind_ok, if_neg hcb, except_rejectIf_ok] at hcheck
    obtain ⟨_, -, _, -, _, -, _, -, _, -, _, -, hnull⟩ := hcheck
    exact fun txin ht hn => hnull ⟨txin, ht, hn⟩
  cases hfetch : tx.fetchInputs env s ∅ false false with
  | error e => simp [hfetch] at h
  | ok mapInputs =>
    obtain ⟨hfetched, -⟩ := CTransaction.fetchInputs_ok hcb hfetch
    simp only [hfetch, except_bind_ok, except_rejectIf_ok] at h
    obtain ⟨_, -, _, -, _, -, h⟩ := h
    split at h
    next => simp at h
    next queue hconn =>
      simp only [CTransaction.connectInputs, if_neg hcb, except_bind_ok, except_pure_ok] at hconn
      obtain ⟨_, -, _, hspend, -⟩ := hconn
      refine ⟨by simpa using hnew, fun txin ht => ?_, ?_, ?_⟩
      · by_contra hne
        exact hfree ⟨txin, ht, by simpa [Option.isSome_iff_ne_none] using hne⟩
      · rintro o ⟨txin, ht, rfl⟩
        exact hreal txin ht
      · rintro o ⟨txin, ht, rfl⟩ p hslot
        obtain ⟨prev, hprev, hunspent⟩ := spendInputs_unspent hspend txin ht
        exact hunspent p (fetchPrev_slot (hfetched _ _ hprev) hslot)

/-- The database is the ledger of a valid list of transactions. -/
structure Books (txdb : CTxDB) (ts : List LedgerTx) : Prop where
  index : txdb.book = Ledger.connectAll (fun _ => none) ts
  valid : Ledger.OkAll (fun _ => none) ts

/-- A loose transaction keeps the pool clean. -/
theorem Acceptable.clean {ts us : List LedgerTx} {tx : CTransaction} (ha : Acceptable P s tx) (htx : T tx)
    (hc : Clean P T ts s.mempool) (hb : Books s.txdb us) (hsub : ∀ u ∈ ts, u ∈ us) :
    Clean P T ts (s.mempool.addUnchecked (tx.getHash P) tx) := by
  have hnew : ∀ {h u}, (s.mempool.addUnchecked (tx.getHash P) tx).lookup h = some u →
      s.mempool.lookup h = some u ∨ u = tx := fun {h u} hu => by
    rw [CTxMemPool.lookup_addUnchecked] at hu
    split at hu
    next => exact .inr (Option.some.inj hu).symm
    next => exact .inl hu
  refine ⟨hc.linked.add ha.new ha.free, fun {h u} hu => ?_, fun {h u o} hu ho => ?_, fun {h u o} hu ho v hv hin => ?_⟩
  · rcases hnew hu with hu | rfl
    · exact hc.mem hu
    · exact htx
  · rcases hnew hu with hu | rfl
    · exact hc.real hu ho
    · exact ha.real o ho
  · rcases hnew hu with hu | rfl
    · exact hc.apart hu ho v hv hin
    · obtain ⟨p, hp⟩ := Ledger.inputs_spent hb.valid (hsub v hv) hin
      rw [← hb.index] at hp
      exact ha.unspent o ho p hp

theorem clean_acceptToMemoryPool (env : Env) {ts us : List LedgerTx} {tx : CTransaction} (htx : T tx) (hc : Clean P T ts s.mempool)
    (hb : Books s.txdb us) (hsub : ∀ u ∈ ts, u ∈ us) :
    Clean P T ts (endState (acceptToMemoryPool P env tx s)).mempool := by
  cases hchecks : acceptChecks P env s tx with
  | error e =>
    rw [acceptToMemoryPool_of_error hchecks]
    exact hc
  | ok u =>
    rw [acceptToMemoryPool_of_ok hchecks]
    exact (acceptChecks_ok hchecks).clean htx hc hb hsub

/-- The transactions that are offered to the pool after a reorganization. -/
theorem clean_resurrect {ts us : List LedgerTx} {vResurrect : List CTransaction} {u : Unit}
    (hrun : resurrect P env vResurrect s = .ok u s') (htx : ∀ tx ∈ vResurrect, T tx)
    (hc : Clean P T ts s.mempool) (hb : Books s.txdb us) (hsub : ∀ u ∈ ts, u ∈ us) : Clean P T ts s'.mempool := by
  induction vResurrect generalizing s with
  | nil =>
    obtain rfl := forM_nil_ok.mp hrun
    exact hc
  | cons tx vResurrect ih =>
    rw [resurrect, forM_cons_ok] at hrun
    obtain ⟨s₁, hone, hrest⟩ := hrun
    simp only [bind_ok, pure_ok] at hone
    obtain ⟨b, s₂, hatt, -, hs⟩ := hone
    rw [hs] at hatt
    have hl : Loose s s₁ := (keeps_attempt (keeps_acceptToMemoryPool tx)).ok hatt
    have hend : s₁ = endState (acceptToMemoryPool P env tx s) := by
      obtain ⟨-, v, hv⟩ | ⟨-, e, hv⟩ := attempt_ok.mp hatt
      · rw [hv, endState_ok]
      · rw [hv, endState_error]
    have hc₁ := clean_acceptToMemoryPool env (htx tx (by simp)) hc hb hsub
    rw [← hend] at hc₁
    have htxdb : s₁.txdb = s.txdb := by rw [hl]
    exact ih hrest (fun u hu => htx u (by simp [hu])) hc₁ (by rw [htxdb]; exact hb)

/-! ## The transactions of the blocks -/

namespace Node

/-- A block above the root is one of `T`, and its transactions are those the
chain has of it. -/
theorem Stored.txsOf_parent (hs : Stored P T s) {p : Uint256} (hp : s.mapBlockIndex.forest.parent h = some p)
    (hblock : s.blockAt h = some block) :
    (∀ tx ∈ block.vtx, T tx) ∧ ∃ nFile nBlockPos, s.txsOf P h = block.ledgerTxs P nFile nBlockPos := by
  obtain ⟨b, hfind, hbp⟩ := BlockTree.parent_some.mp hp
  obtain ⟨block', hdisk, -, hall⟩ := hs.onDisk h b hfind
  obtain rfl : block = block' := by simpa [Node.blockAt, hfind, hdisk] using hblock.symm
  exact ⟨(hall p hbp).2.2, b.nFile, b.nBlockPos, txsOf_of_pprev hfind hbp hdisk⟩

theorem chainTxs_of_parent {p : Uint256} (hp : s.mapBlockIndex.forest.parent h = some p) :
    s.chainTxs P h = s.chainTxs P p ++ s.txsOf P h := by
  obtain ⟨b, hfind, hbp⟩ := BlockTree.parent_some.mp hp
  exact chainTxs_of_pprev hfind hbp

theorem chainTxs_of_path {l : List Uint256} (hp : s.mapBlockIndex.forest.Path t l) :
    s.chainTxs P (l.getLastD t) = s.chainTxs P t ++ l.flatMap (s.txsOf P) := by
  induction l generalizing t with
  | nil => simp
  | cons h l ih => rw [List.getLastD_cons, ih hp.2, chainTxs_of_parent hp.1, List.flatMap_cons, List.append_assoc]

end Node

/-- The transactions to resurrect are of blocks of the old branch. -/
theorem resurrected_mem {vDisconnect : List Uint256} {vResurrect v : List CTransaction} (hs : Stored P T s)
    (hr : s.mapBlockIndex.forest.Rises vDisconnect t) (hv : ∀ tx ∈ vResurrect, T tx)
    (hrun : disconnectLoop P env vDisconnect vResurrect s = .ok v s') : ∀ tx ∈ v, T tx := by
  induction vDisconnect generalizing s vResurrect with
  | nil =>
    simp only [disconnectLoop, pure_ok] at hrun
    rw [← hrun.1]
    exact hv
  | cons h vDisconnect ih =>
    simp only [disconnectLoop, bind_ok] at hrun
    obtain ⟨vtx, s₁, hone, hrest⟩ := hrun
    have hi : Inside (fun _ => True) s s₁ := (keeps_disconnectOne h).ok hone
    refine ih (hs.of_inside hi) (hr.2.mono hi.grows.tree.parent_mono) (fun tx htx => ?_) hrest
    rcases List.mem_append.mp htx with htx | htx
    · simp only [disconnectOne, bind_ok, deref_ok, get_ok, withError_ok, lift_ok, pure_ok] at hone
      obtain ⟨b, _, ⟨hb, rfl⟩, _, _, ⟨rfl, rfl⟩, block, s, ⟨hread, rfl⟩, _, _, -, rfl, -⟩ := hone
      exact (hs.txsOf_parent hr.1 (Node.blockAt_of_readIndexed hb hread)).1 tx (List.mem_filter.mp htx).1
    · exact hv tx htx

/-- The transactions to delete are those of the new branch. -/
theorem deleted_mem {vConnect : List Uint256} {vDelete v : List CTransaction} (hs : Stored P T s)
    (hp : s.mapBlockIndex.forest.Path t vConnect) (hv : ∀ tx ∈ vDelete, T tx)
    (hrun : connectLoop P env vConnect vDelete s = .ok v s') :
    (∀ tx ∈ v, T tx) ∧ (∀ tx ∈ vDelete, tx ∈ v) ∧
      ∀ u ∈ vConnect.flatMap (s.txsOf P), ∃ tx ∈ v, ∀ o : COutPoint, o.key ∈ u.inputs → Spends tx o := by
  induction vConnect generalizing s t vDelete with
  | nil =>
    simp only [connectLoop, pure_ok] at hrun
    rw [← hrun.1]
    exact ⟨hv, fun _ h => h, by simp⟩
  | cons h vConnect ih =>
    simp only [connectLoop, bind_ok] at hrun
    obtain ⟨vtx, s₁, hone, hrest⟩ := hrun
    have hi : Inside (fun _ => False) s s₁ := (keeps_connectOne h (by simp)).ok hone
    simp only [connectOne, bind_ok, deref_ok, get_ok, withError_ok, lift_ok, pure_ok] at hone
    obtain ⟨b, _, ⟨hb, rfl⟩, _, _, ⟨rfl, rfl⟩, block, s, ⟨hread, rfl⟩, _, _, -, rfl, -⟩ := hone
    obtain ⟨hblockT, nFile, nBlockPos, htxs⟩ := hs.txsOf_parent hp.1 (Node.blockAt_of_readIndexed hb hread)
    have hacc : ∀ tx ∈ vDelete ++ block.vtx, T tx := fun tx htx => (List.mem_append.mp htx).elim (hv tx) (hblockT tx)
    obtain ⟨hall, hkept, hcover⟩ := ih (hs.of_inside hi) (hp.2.mono hi.grows.tree.parent_mono) hacc hrest
    refine ⟨hall, fun tx htx => hkept tx (List.mem_append_left _ htx), fun u hu => ?_⟩
    rw [List.flatMap_cons, List.mem_append] at hu
    rcases hu with hu | hu
    · rw [htxs] at hu
      obtain ⟨pre, tx, post, hvtx, rfl⟩ := mem_ledgerTxs hu
      exact ⟨tx, hkept tx (List.mem_append_right _ (by simp [hvtx])), fun o ho => mem_inputs ho⟩
    · refine hcover u ?_
      rw [List.mem_flatMap] at hu ⊢
      obtain ⟨k, hk, hu⟩ := hu
      refine ⟨k, hk, ?_⟩
      rw [hi.grows.txsOf_eq hs (BlockTree.has_of_path hp.2 k hk)]
      exact hu

/-! ## What SetBestChain does to the pool -/

theorem Node.Connected.books (hc : Connected P T s t) : Books s.txdb (s.chainTxs P t) := ⟨hc.index, hc.valid⟩

/-- A reorganization keeps the pool clean, for the new branch. -/
theorem clean_reorganize (hT : HashesApart P T) (hf : Follows P T s t) (hb : s.pindexBest = some t) {n : Uint256} {u : Unit}
    (hn : s.mapBlockIndex.Has n) (hc : Clean P T (s.chainTxs P t) s.mempool) (hrun : reorganize P env n s = .ok u s') :
    Clean P T (s.chainTxs P n) s'.mempool := by
  obtain ⟨pb, f, vResurrect, vDelete, s₃, _, hpb, hfork, hswitch, hsettle, rfl⟩ := reorganize_ok.mp hrun
  obtain rfl : t = pb := by simpa [hb] using hpb
  obtain ⟨hft, hfn, -⟩ := Forest.meet_spec hfork
  obtain ⟨s₁, s₂, hdis, hconn, rfl, hi₁, hi₂, hs₁, hs₂, hc₂⟩ := hf.switchBranch hT hft hfn hswitch
  obtain ⟨hrises, -⟩ := Forest.rises_below hft
  obtain ⟨hpath, hlast⟩ := Forest.path_below hfn
  have hsplit := Node.chainTxs_of_path (P := P) hpath
  rw [hlast] at hsplit
  obtain ⟨ts, hts⟩ := Node.chainTxs_prefix (P := P) hft
  -- down to the fork nothing in the pool is spent by the chain
  have hfork : Clean P T (s.chainTxs P f) s₂.mempool := by
    rw [show s₂.mempool = s.mempool by rw [hi₂.rest]]
    exact hc.mono fun u hu => by rw [hts]; exact List.mem_append_left _ hu
  have hbooks : Books (s₂.txdb.writeHashBestChain n).commit (s.chainTxs P n) := by
    have hb₂ := hc₂.books
    rw [hi₂.grows.chainTxs_eq hf.stored hn] at hb₂
    exact ⟨(book_commit_best _ _).trans hb₂.index, hb₂.valid⟩
  have hresT := resurrected_mem hf.stored hrises (by simp) hdis
  obtain ⟨hdelT, -, hcover⟩ := deleted_mem hs₁ (hpath.mono hi₁.grows.tree.parent_mono) (by simp) hconn
  -- then the old branch is resurrected, and the new one dropped
  obtain ⟨s₄, hres, hloose, hrun'⟩ := settleBranch_run P env (s.mapBlockIndex.forest.below t f)
    (s.mapBlockIndex.forest.below n f).reverse vResurrect vDelete (s₂.withTxdb (s₂.txdb.writeHashBestChain n).commit)
  obtain ⟨-, rfl⟩ := EStateM.Result.ok.inj (hsettle.symm.trans hrun')
  have hc₄ : Clean P T (s.chainTxs P f) s₄.mempool := clean_resurrect hres hresT hfork hbooks
    fun u hu => by rw [hsplit]; exact List.mem_append_left _ hu
  rw [hsplit]
  refine hc₄.drop hT hdelT fun u hu => hcover u ?_
  rw [List.mem_flatMap] at hu ⊢
  obtain ⟨k, hk, hu⟩ := hu
  exact ⟨k, hk, by rw [hi₁.grows.txsOf_eq hf.stored (BlockTree.has_of_path hpath k hk)]; exact hu⟩

/-- A block is attached on top. -/
theorem clean_inner (hT : HashesApart P T) (hs : Stored P T s) {u : Unit} (hp : s.mapBlockIndex.forest.parent h = some t)
    (hblock : s.blockAt h = some block) (hc : Clean P T (s.chainTxs P t) s.mempool) (ha : s.mempool.agrees block)
    (hrun : setBestChainInner P env block h s = .ok u s') : Clean P T (s.chainTxs P h) s'.mempool := by
  obtain ⟨b, b', s₁, hb, hconn, -, rfl⟩ := setBestChainInner_ok.mp hrun
  have hi : Inside (fun _ => False) s s₁ := (keeps_connectBlock block b (by simp)).ok hconn
  obtain ⟨hblockT, nFile, nBlockPos, htxs⟩ := hs.txsOf_parent hp hblock
  rw [Node.chainTxs_of_parent hp, htxs]
  change Clean P T _ (block.vtx.foldl (fun pool tx => pool.remove P tx false) s₁.mempool)
  rw [show s₁.mempool = s.mempool by rw [hi.rest]]
  exact hc.attach hT hblockT ha nFile nBlockPos

end Pinkcoin
