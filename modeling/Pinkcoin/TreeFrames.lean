/-
The calls that leave the block index as it is, but for the pointers along
the chain and the supply: all of them apart from `AddToBlockIndex`.
-/
import Pinkcoin.AcceptBlock
import Pinkcoin.MainChain

namespace Pinkcoin

open StateError

/-- The block index has the same blocks, and their records the same cores. -/
structure Node.Still (s s' : Node) : Prop where
  tree : s.mapBlockIndex.Grows s'.mapBlockIndex
  new : ∀ hash, s.mapBlockIndex.find hash = none → s'.mapBlockIndex.find hash = none

namespace Node.Still

variable {s s' s'' : Node}

theorem refl : Still s s := ⟨.refl, fun _ h => h⟩

theorem trans (h : Still s s') (h' : Still s' s'') : Still s s'' :=
  ⟨h.tree.trans h'.tree, fun hash hnone => h'.new hash (h.new hash hnone)⟩

instance : Std.Refl Still := ⟨fun _ => .refl⟩
instance : IsTrans Node Still := ⟨fun _ _ _ h h' => h.trans h'⟩

theorem of_steady (h : Steady s s') : Still s s' := ⟨h.tree, h.new⟩

/-- A change of the rest of the node. -/
theorem of_tree (h : s'.mapBlockIndex = s.mapBlockIndex) : Still s s' := by
  refine ⟨?_, fun hash hnone => ?_⟩
  · rw [h]
    exact .refl
  · rw [h]
    exact hnone

end Node.Still

open Node (Still)

variable {P : Params} {env : Env}

theorem still_txnCommit (e : Reject) : Keeps Still (txnCommit env e) := (keeps_txnCommit e).mono fun _ _ => .of_steady

theorem still_setBestChain (block : CBlock) (hash : Uint256) : Keeps Still (setBestChain P env block hash) :=
  (keeps_setBestChain block hash).mono fun _ _ => .of_steady

theorem still_deref (hash : Uint256) : Keeps Still (deref hash) :=
  (keeps_deref (S := fun _ => False) hash).mono fun _ _ h => .of_steady h.steady

theorem still_validateSyncCheckpoint (hash : Uint256) : Keeps Still (validateSyncCheckpoint hash) := by
  refine keeps_bind keeps_get fun s => ?_
  split
  · exact keeps_throw _
  · exact keeps_throw _
  · refine keeps_ite ?_ ?_
    · split
      · exact keeps_throw _
      · exact keeps_ite (keeps_bind (keeps_modify fun _ => .of_tree rfl) fun _ => keeps_throw _) (keeps_throw _)
    · split
      · exact keeps_throw _
      · exact keeps_ite (keeps_bind (keeps_modify fun _ => .of_tree rfl) fun _ => keeps_throw _) (keeps_pure _)

theorem still_writeSyncCheckpoint (hash : Uint256) : Keeps Still (writeSyncCheckpoint env hash) :=
  keeps_bind (keeps_modify fun _ => .of_tree rfl) fun _ => keeps_bind (still_txnCommit _) fun _ =>
    keeps_modify fun _ => .of_tree rfl

theorem still_moveToCheckpoint (hash : Uint256) (fSync : Bool) (readFailed setFailed : String) :
    Keeps Still (moveToCheckpoint P env hash fSync readFailed setFailed) := by
  refine keeps_bind keeps_get fun s => keeps_ite ?_ (keeps_pure _)
  refine keeps_bind (still_deref hash) fun pindexCheckpoint => ?_
  split
  · exact keeps_throw _
  · refine keeps_bind (keeps_attempt (still_setBestChain _ _)) fun fOk => keeps_ite ?_ (keeps_pure _)
    exact keeps_bind (keeps_modify fun _ => .of_tree rfl) fun _ => keeps_throw _

theorem still_acceptPendingSyncCheckpoint : Keeps Still (acceptPendingSyncCheckpoint P env) := by
  refine keeps_bind keeps_get fun s => keeps_bind (keeps_rejectIf _ _) fun _ => ?_
  refine keeps_bind (keeps_attempt (still_validateSyncCheckpoint _)) fun fValid => keeps_ite ?_ ?_
  · exact keeps_bind (still_moveToCheckpoint _ _ _ _) fun _ =>
      keeps_bind (keeps_withError _ (still_writeSyncCheckpoint _)) fun _ => keeps_modify fun _ => .of_tree rfl
  · exact keeps_bind (keeps_modify fun _ => .of_tree rfl) fun _ => keeps_throw _

theorem still_processSyncCheckpoint (fSignatureOk : Bool) (hash : Uint256) :
    Keeps Still (processSyncCheckpoint P env fSignatureOk hash) := by
  refine keeps_bind (keeps_rejectIf _ _) fun _ => keeps_bind keeps_get fun s => keeps_ite ?_ ?_
  · exact keeps_bind (keeps_modify fun _ => .of_tree rfl) fun _ => keeps_throw _
  · exact keeps_bind (still_validateSyncCheckpoint _) fun _ => keeps_bind (still_moveToCheckpoint _ _ _ _) fun _ =>
      keeps_bind (keeps_withError _ (still_writeSyncCheckpoint _)) fun _ => keeps_modify fun _ => .of_tree rfl

theorem still_resetSyncCheckpoint : Keeps Still (resetSyncCheckpoint P env) := by
  refine keeps_bind keeps_get fun s => ?_
  split
  · exact keeps_throw _
  · refine keeps_ite (keeps_bind (still_moveToCheckpoint _ _ _ _) fun _ => ?_)
      (keeps_bind (keeps_modify fun _ => .of_tree rfl) fun _ => ?_)
    all_goals
      refine keeps_bind keeps_get fun s => ?_
      split
      · exact keeps_throw _
      · exact keeps_withError _ (still_writeSyncCheckpoint _)

end Pinkcoin
