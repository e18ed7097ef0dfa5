import Nyx.Process.Blocks

/-! Every operation keeps the ownership of heap blocks, so a snapshot buffer is stored in
one region of one task (`snapshots_single_owner`). -/
namespace Nyx.Process
open Nyx.Lib Kernel List
namespace Kernel

variable {k : Kernel} {S S' : Set Place} {p b : Nat}

/-! ### The loops over a region table -/

theorem owns_foldl {f : Kernel → Fin procMaxVmas → Kernel}
    (hf : ∀ k i, k.blocks.Owns S → (f k i).blocks.Owns S) (h : k.blocks.Owns S)
    (l : List (Fin procMaxVmas)) : (l.foldl f k).blocks.Owns S :=
  foldlRecOn l f h fun k hk i _ => hf k i hk

variable (i : Fin procMaxVmas)

theorem owns_freeBuf (hp : .buf p i ∈ S) (h : k.blocks.Owns S) : (freeBuf p k i).blocks.Owns S := by
  unfold freeBuf
  dsimp only
  split
  · exact h
  · exact owns_dropBuf h hp rfl

theorem owns_mmapFreeBufs (h : k.blocks.Owns S) (hp : ∀ i, .buf p i ∈ S) :
    (k.mmapFreeBufs p).blocks.Owns S := owns_foldl (fun _ i hk => owns_freeBuf i (hp i) hk) h _

/-- Overwriting a region with one that owns nothing. -/
theorem owns_setVma_null {i : Fin procMaxVmas} {v : Vma} (h : k.blocks.Owns S)
    (hv : v.fileBuf = 0) : (k.modify p (setVma · i v)).blocks.Owns S :=
  owns_setVma (owns_mono h Set.sdiff_subset) (fun hne => absurd hv hne) fun _ => hv

theorem owns_dropVma (hp : .buf p i ∈ S) (h : k.blocks.Owns S) : (dropVma p k i).blocks.Owns S := by
  unfold dropVma
  dsimp only
  split
  case isTrue hnull => exact owns_setVma_null h hnull
  case isFalse => exact owns_dropBuf h hp rfl

theorem owns_unmapVma (start stop : BitVec 64) (i : Fin procMaxVmas) (hp : .buf p i ∈ S)
    (h : k.blocks.Owns S) : (unmapVma p start stop k i).blocks.Owns S := by
  unfold unmapVma
  dsimp only
  split
  · split
    case isTrue hnull => exact owns_setVma_null h hnull
    case isFalse => exact owns_dropBuf h hp rfl
  · exact h

/-- What the fork loop keeps: the regions it has been through belong to the child, and an
unused region of the child owns nothing. -/
structure Duplicated (k : Kernel) (S : Set Place) (child : Nat) (done : List (Fin procMaxVmas)) :
    Prop where
  owns : k.blocks.Owns {x | x ∈ S ∨ ∃ i ∈ done, x = .buf child i}
  idle : ∀ i, (k.blocks.regions child i).used = false → (k.blocks.regions child i).fileBuf = 0

theorem kmalloc_regions (choice : Nat) :
    (k.kmalloc choice).1.blocks.regions = k.blocks.regions := by
  simp only [blocks, kmalloc_procs]

theorem duplicated_setVma {child : Nat} {done : List (Fin procMaxVmas)} {i : Fin procMaxVmas}
    {v : Vma} (h : Duplicated k S child done)
    (hv : v.fileBuf ≠ 0 → k.heap v.fileBuf = true ∧
      Unheld k.blocks.held {x | x ∈ S ∨ ∃ j ∈ done, x = .buf child j} v.fileBuf)
    (hused : v.used = true) :
    Duplicated (k.modify child (setVma · i v)) S child (i :: done) := by
  have hsub : {x | x ∈ S ∨ ∃ j ∈ i :: done, x = .buf child j} \ {.buf child i} ⊆
      {x | x ∈ S ∨ ∃ j ∈ done, x = .buf child j} := by
    intro x hx
    rcases hx.1 with hS | ⟨j, hj, rfl⟩
    · exact .inl hS
    rcases mem_cons.mp hj with rfl | hj
    · exact absurd rfl hx.2
    · exact .inr ⟨j, hj, rfl⟩
  have hidle : v.used = false → v.fileBuf = 0 := fun he => by simp [hused] at he
  refine ⟨owns_setVma (owns_mono h.owns hsub) ?_ hidle, ?_⟩
  · exact fun hne => ⟨(hv hne).1, fun x hx => (hv hne).2 x (hsub hx)⟩
  intro j
  rw [regions_setVma]
  split
  · exact hidle
  · exact h.idle j

variable {child : Nat} {done : List (Fin procMaxVmas)} {heir dying : Nat}

theorem duplicated_kmalloc (h : Duplicated k S child done) (choice : Nat) :
    Duplicated (k.kmalloc choice).1 S child done := by
  refine ⟨owns_kmalloc h.owns choice, ?_⟩
  rw [kmalloc_regions]
  exact h.idle

theorem duplicated_dupBuf (h : Duplicated k S child done) (bufs : Fin procMaxVmas → Nat)
    (i : Fin procMaxVmas) : Duplicated (dupBuf child bufs k i) S child (i :: done) := by
  unfold dupBuf
  dsimp only
  split
  case isTrue hown =>
    have hused : ((k.procs child).mmapVmas i).used = true := by
      simp only [Bool.and_eq_true] at hown
      exact hown.1
    split
    · exact duplicated_setVma (duplicated_kmalloc h _) (fun hne => absurd rfl hne) hused
    case isFalse hnb =>
      refine duplicated_setVma (duplicated_kmalloc h _) (fun _ => ?_) hused
      exact kmalloc_fresh h.owns hnb
  case isFalse hown =>
    have hnull : k.blocks.held (.buf child i) = 0 := by
      cases hused : ((k.procs child).mmapVmas i).used
      · exact h.idle i hused
      · show ((k.procs child).mmapVmas i).fileBuf = 0
        simpa [hused] using hown
    refine ⟨owns_adjust h.owns ?_, h.idle⟩
    intro x hx hne
    rcases hx with hS | ⟨j, hj, rfl⟩
    · exact .inl hS
    rcases mem_cons.mp hj with rfl | hj
    · exact absurd hnull hne
    · exact .inr ⟨j, hj, rfl⟩

theorem duplicated_foldl (bufs : Fin procMaxVmas → Nat) :
    ∀ (l done : List (Fin procMaxVmas)) (k : Kernel), Duplicated k S child done →
      Duplicated (l.foldl (dupBuf child bufs) k) S child (l.reverse ++ done) := by
  intro l
  induction l with
  | nil => exact fun _ _ h => h
  | cons i l ih =>
    intro done k h
    rw [foldl_cons, reverse_cons, append_assoc]
    exact ih _ _ (duplicated_dupBuf h bufs i)

/-- After the loop all of the child's regions own their buffers. -/
theorem owns_dupBufs {child : Nat} {bufs : Fin procMaxVmas → Nat} (h : k.blocks.Owns S)
    (hidle : ∀ i, ((k.procs child).mmapVmas i).used = false →
      ((k.procs child).mmapVmas i).fileBuf = 0) :
    (k.dupBufs child bufs).blocks.Owns {x | x ∈ S ∨ ∃ i, x = .buf child i} := by
  have hstart : Duplicated k S child [] := ⟨owns_mono h fun x hx => by simpa using hx, hidle⟩
  have hend := duplicated_foldl bufs (finRange procMaxVmas) [] k hstart
  refine owns_mono hend.owns ?_
  intro x hx
  rcases hx with hS | ⟨i, rfl⟩
  · exact .inl hS
  · exact .inr ⟨i, by simp, rfl⟩

/-! ### Teardown -/

theorem blocks_repoint (dying : Nat) (pid : BitVec 32) :
    (k.repoint dying pid).blocks = k.blocks := by
  have hstack (q : Nat) :
      ((k.repoint dying pid).procs q).kernelStack = (k.procs q).kernelStack := by
    unfold repoint
    dsimp only
    split <;> rfl
  have hregion (q : Nat) : ((k.repoint dying pid).procs q).mmapVmas = (k.procs q).mmapVmas := by
    unfold repoint
    dsimp only
    split <;> rfl
  unfold blocks
  simp only [hstack, hregion]
  rfl

def handedOver (k : Kernel) (heir dying : Nat) : Blocks :=
  {k.blocks with regions := fun q =>
    if q = heir then k.blocks.regions dying
    else if q = dying then fun i => disown (k.blocks.regions dying i)
    else k.blocks.regions q}

theorem blocks_handover (hne : heir ≠ dying) :
    ((k.modify heir (inherit (k.procs dying))).modify dying relinquish).blocks =
      k.handedOver heir dying := by
  have hstack (q : Nat) :
      (((k.modify heir (inherit (k.procs dying))).modify dying relinquish).procs q).kernelStack =
        (k.procs q).kernelStack :=
    (modify_field _ dying relinquish Proc.kernelStack (fun _ => rfl) q).trans
      (k.modify_field heir (inherit _) Proc.kernelStack (fun _ => rfl) q)
  have hregion (q : Nat) :
      (((k.modify heir (inherit (k.procs dying))).modify dying relinquish).procs q).mmapVmas =
        if q = heir then (k.procs dying).mmapVmas
        else if q = dying then fun i => disown ((k.procs dying).mmapVmas i)
        else (k.procs q).mmapVmas := by
    rcases eq_or_ne q dying with rfl | hq
    · rw [modify_procs_self, modify_procs_ne k heir _ hne.symm, if_neg hne.symm, if_pos rfl]
      rfl
    rw [modify_procs_ne _ dying _ hq, if_neg hq]
    rcases eq_or_ne q heir with rfl | hq'
    · rw [modify_procs_self, if_pos rfl]
      rfl
    · rw [modify_procs_ne k heir _ hq', if_neg hq']
  unfold blocks handedOver
  simp only [hstack, hregion]
  rfl

/-- The heir gets the dying leader's regions, which then own nothing there. -/
theorem blocks_tgReassignLeader (k : Kernel) (dying : Nat) :
    (k.tgReassignLeader dying).blocks = k.blocks ∨ ∃ heir ∈ k.table, heir ≠ dying ∧
        (k.tgReassignLeader dying).blocks = k.handedOver heir dying := by
  unfold tgReassignLeader
  split
  case h_1 => exact .inl rfl
  case h_2 heir hfind =>
    have hheir := find?_some hfind
    simp only [inGroup, Bool.and_eq_true, bne_iff_ne] at hheir
    refine .inr ⟨heir, mem_of_find?_eq_some hfind, hheir.1.2, ?_⟩
    simp only [blocks_modify, implies_true, blocks_repoint, blocks_handover hheir.1.2]

def handoverOrigin (heir dying : Nat) : Place → Place
  | .buf q i => if q = heir then .buf dying i else .buf q i
  | x => x

theorem held_handedOver_buf (q : Nat) (i : Fin procMaxVmas) :
    (k.handedOver heir dying).held (.buf q i) =
      if q = heir then k.blocks.held (.buf dying i)
      else if q = dying then 0 else k.blocks.held (.buf q i) := by
  simp only [Blocks.held, handedOver]
  split
  · rfl
  · split <;> rfl

/-- The dying leader's regions hold nothing any more, so the way back is the same map. -/
theorem handoverOrigin_back {x : Place} (hx : (k.handedOver heir dying).held x ≠ 0) :
    handoverOrigin dying heir (handoverOrigin heir dying x) = x := by
  cases x with
  | task q => rfl
  | stack q => rfl
  | buf q i =>
    rw [held_handedOver_buf] at hx
    unfold handoverOrigin
    split at hx
    case isTrue hq => simp only [hq, if_true]
    case isFalse hq =>
      split at hx
      · exact absurd rfl hx
      case isFalse hq' => simp only [if_neg hq, if_neg hq']

theorem owns_handedOver (h : k.blocks.Owns S) (hdying : ∀ i, .buf dying i ∈ S) :
    (k.handedOver heir dying).Owns S := by
  refine ⟨h.exclusive.transfer (handoverOrigin heir dying) ?_ ?_, ?_, h.frees⟩
  · intro x hx hheld
    cases x with
    | task q => exact ⟨hx, rfl⟩
    | stack q => exact ⟨hx, rfl⟩
    | buf q i =>
      rw [held_handedOver_buf] at hheld ⊢
      unfold handoverOrigin
      split at hheld
      case isTrue hq => simp only [if_pos hq, hdying i, true_and]
      case isFalse hq =>
        split at hheld
        · exact absurd rfl hheld
        case isFalse hq' => simp only [if_neg hq, if_neg hq', hx, true_and]
  · intro x _ y _ hx hy ho
    rw [← handoverOrigin_back hx, ho, handoverOrigin_back hy]
  · intro q i hq hused
    simp only [handedOver] at hused ⊢
    split at hused
    case isTrue hq' =>
      rw [if_pos hq']
      exact h.idle dying i (hdying i) hused
    case isFalse hq' =>
      rw [if_neg hq']
      split at hused
      case isTrue hq'' =>
        rw [if_pos hq'']
        rfl
      case isFalse hq'' =>
        rw [if_neg hq'']
        exact h.idle q i hq hused

theorem owns_tgReassignLeader {dying : Nat} (h : k.blocks.Owns S)
    (hdying : ∀ i, .buf dying i ∈ S) : (k.tgReassignLeader dying).blocks.Owns S := by
  rcases blocks_tgReassignLeader k dying with he | ⟨heir, _, _, he⟩
  · rw [he]
    exact h
  rw [he]
  exact owns_handedOver h hdying

theorem owns_removeEntry {i : Nat} (h : k.blocks.Owns S) : (k.removeEntry i).blocks.Owns S :=
  ⟨h.exclusive, h.idle, h.frees⟩

theorem owns_releaseSpace (h : k.blocks.Owns S) (hp : .stack p ∈ S) :
    (k.releaseSpace p).blocks.Owns (S \ {.stack p}) := by
  unfold releaseSpace
  dsimp only
  split
  · have hfreed : (k.freePageDirectory (k.procs p).pageDirectory p).blocks.Owns S := by
      rwa [blocks_freePageDirectory]
    have hstack := owns_kfree_held hfreed hp fun _ hy => hy
    rwa [blocks_freePageDirectory] at hstack
  · exact owns_kfree_held h hp fun _ hy => hy

/-- What a dying task owned, up to its own record, which still stands. -/
theorem owns_tearDown (h : k.blocks.Owns S) (hp : ∀ x : Place, x.owner = p → x ∈ S) :
    (k.tearDown p).blocks.Owns (S \ {.stack p}) := by
  have hbufs (i : Fin procMaxVmas) : .buf p i ∈ S := hp _ rfl
  have hhanded := owns_tgReassignLeader h hbufs
  exact owns_releaseSpace (owns_mmapFreeBufs hhanded hbufs) (hp _ rfl)

/-- The end of a teardown: the record is freed, its entry being gone from the table. -/
theorem owned_retire {old : Blocks} (hold : old.Owned) (hp : p ∈ old.table)
    (hnodup : k.table.Nodup) (hmem : ∀ x, x ∈ k.table ↔ x ∈ old.table ∧ x ≠ p)
    (h : k.blocks.Owns (old.places \ {.stack p})) : (k.kfree p).blocks.Owned := by
  have htable : (k.kfree p).blocks.table = k.table := kfree_table k p
  refine ⟨htable.symm ▸ hnodup, ?_, ?_⟩
  · rw [htable, hmem]
    exact fun h0 => hold.nonnull h0.1
  refine owns_kfree_held (x := .task p) h ⟨hp, by simp⟩ fun x hx => ?_
  have howner : x.owner ∈ k.table := htable ▸ hx
  rw [hmem] at howner
  refine ⟨⟨howner.1, ?_⟩, ?_⟩ <;>
  · intro he
    rw [he] at howner
    exact howner.2 rfl

theorem owned_reapEntry (h : k.blocks.Owned) {i : Nat} (hi : k.table[i]? = some p) :
    (k.reapEntry p i).blocks.Owned := by
  have hp : p ∈ k.table := mem_of_getElem? hi
  have hclosed : (k.closeProcFds p).blocks.Owns k.blocks.places := by
    rw [blocks_closeProcFds]
    exact h.owns
  have htorn := owns_tearDown hclosed fun x hx => (hx ▸ hp : x.owner ∈ k.table)
  rw [← blocks_patchIndex _ i] at htorn
  refine owned_retire h hp ?_ ?_ (owns_removeEntry htorn)
  · rw [removeEntry_table, patchIndex_table, tearDown_table, closeProcFds_table]
    exact nodup_swapRemove h.nodup hi
  · intro x
    rw [removeEntry_table, patchIndex_table, tearDown_table, closeProcFds_table]
    exact mem_swapRemove h.nodup hi

theorem owned_reapUserProcess (h : k.blocks.Owned) (hp : p ∈ k.table) :
    (k.reapUserProcess p).blocks.Owned := by
  have hi : k.table[k.table.idxOf p]? = some p := getElem?_idxOf hp
  have hclosed : (k.closeProcFds p).blocks.Owns k.blocks.places := by
    rw [blocks_closeProcFds]
    exact h.owns
  have htorn := owns_tearDown (owns_removeEntry (i := k.table.idxOf p) hclosed)
    fun x hx => (hx ▸ hp : x.owner ∈ k.table)
  rw [reapUserProcess_eq hp]
  refine owned_retire h hp ?_ ?_ htorn
  · rw [tearDown_table, removeEntry_table, closeProcFds_table]
    exact nodup_swapRemove h.nodup hi
  · intro x
    rw [tearDown_table, removeEntry_table, closeProcFds_table]
    exact mem_swapRemove h.nodup hi

/-! ### A task under construction -/

/-- The task `p` is allocated but not in the table yet; the places `S` of it are filled. -/
structure Making (b : Blocks) (p : Nat) (S : Set Place) : Prop where
  nodup : b.table.Nodup
  nonnull : 0 ∉ b.table
  some : p ≠ 0
  outside : p ∉ b.table
  owns : b.Owns {x | x.owner ∈ b.table ∨ x ∈ S}

theorem owned_kmalloc (h : k.blocks.Owned) (choice : Nat) : (k.kmalloc choice).1.blocks.Owned := by
  have htable : (k.kmalloc choice).1.blocks.table = k.table := kmalloc_table k choice
  refine ⟨htable ▸ h.nodup, htable ▸ h.nonnull, ?_⟩
  have hplaces : (k.kmalloc choice).1.blocks.places = k.blocks.places := by
    unfold Blocks.places
    rw [htable]
    rfl
  rw [hplaces]
  exact owns_kmalloc h.owns choice

theorem making_new (h : k.blocks.Owned) (hp : p ≠ 0)
    (hfresh : k.heap p = true ∧ Unheld k.blocks.held k.blocks.places p) {f : Proc → Proc}
    (hf : ∀ t, (f t).kernelStack = 0) :
    Making (k.modify p f).blocks p {.task p, .stack p} := by
  have hout : p ∉ k.table := fun hin => hfresh.2 (.task p) hin rfl
  have hne {x : Place} (hx : x ∈ k.blocks.places) : x.owner ≠ p :=
    fun he => hout (he ▸ hx : p ∈ k.table)
  have hother : (k.modify p f).blocks.Owns k.blocks.places :=
    owns_modify_other h.owns (fun x hx => hne hx) f
  have htask : (k.modify p f).blocks.Owns (insert (.task p) k.blocks.places) := by
    refine owns_replace (x := .task p) (owns_mono hother ?_) (fun _ _ => rfl) rfl rfl ?_ ?_
    · exact fun x hx => hx.1.resolve_left hx.2
    · refine fun _ => ⟨hfresh.1, fun x hx => ?_⟩
      have hx := hx.1.resolve_left hx.2
      rw [held_modify_ne (hne hx) f]
      exact hfresh.2 x hx
    · exact fun q i hq => hother.idle q i (hq.resolve_left Place.noConfusion)
  refine ⟨h.nodup, h.nonnull, hp, hout, owns_adjust htask ?_⟩
  intro x hx hheld
  rcases hx with hx | rfl | rfl
  · exact .inr hx
  · exact .inl rfl
  · exact absurd ((congrArg Proc.kernelStack (k.modify_procs_self p f)).trans (hf _)) hheld

/-- A region table that owns nothing joins as it is. -/
theorem making_bufs (h : Making k.blocks p {.task p, .stack p})
    (hnull : ∀ i, ((k.procs p).mmapVmas i).fileBuf = 0) :
    Making k.blocks p {x | x.owner = p} := by
  refine ⟨h.nodup, h.nonnull, h.some, h.outside, owns_adjust h.owns ?_⟩
  intro x hx hheld
  rcases hx with hx | rfl
  · exact .inl hx
  cases x with
  | task q => exact .inr (.inl rfl)
  | stack q => exact .inr (.inr rfl)
  | buf q i => exact absurd (hnull i) hheld

theorem making_kmalloc (h : Making k.blocks p S) (choice : Nat) :
    Making (k.kmalloc choice).1.blocks p S := by
  have htable : (k.kmalloc choice).1.blocks.table = k.blocks.table := kmalloc_table k choice
  refine ⟨htable ▸ h.nodup, htable ▸ h.nonnull, h.some, htable ▸ h.outside, ?_⟩
  rw [htable]
  exact owns_kmalloc h.owns choice

/-- The new task gets its kernel stack, which `kmalloc` just handed out. -/
theorem making_stack (h : Making k.blocks p S) {choice : Nat} (hstk : (k.kmalloc choice).2 ≠ 0)
    {f : Proc → Proc} (hs : ∀ t, (f t).kernelStack = (k.kmalloc choice).2)
    (hv : ∀ t, (f t).mmapVmas = t.mmapVmas) :
    Making ((k.kmalloc choice).1.modify p f).blocks p S := by
  have hk := making_kmalloc h choice
  have hfresh := kmalloc_fresh h.owns hstk
  have htable : (k.kmalloc choice).1.blocks.table = k.blocks.table := kmalloc_table k choice
  rw [← htable] at hfresh
  exact ⟨hk.nodup, hk.nonnull, hk.some, hk.outside, owns_setStack hk.owns hfresh hs hv⟩

/-- A complete task enters the table. -/
theorem owned_append (h : Making k.blocks p {x | x.owner = p}) : (k.append p).blocks.Owned := by
  refine ⟨?_, ?_, ?_⟩
  · exact nodup_append.mpr ⟨h.nodup, nodup_singleton p, fun x hx y hy he =>
      h.outside ((he.trans (mem_singleton.mp hy)) ▸ hx)⟩
  · intro h0
    rcases mem_append.mp h0 with h0 | h0
    · exact h.nonnull h0
    · exact h.some (mem_singleton.mp h0).symm
  · have hsub : (k.append p).blocks.places ⊆ {x | x.owner ∈ k.blocks.table ∨ x.owner = p} := by
      intro x hx
      rcases mem_append.mp hx with hx | hx
      · exact .inl hx
      · exact .inr (mem_singleton.mp hx)
    have howns := owns_mono h.owns hsub
    exact ⟨howns.exclusive, howns.idle, howns.frees⟩

/-- A task that could not be completed is freed again. -/
theorem owned_abort (h : Making k.blocks p S) (hp : .task p ∈ S) : (k.kfree p).blocks.Owned := by
  have htable : (k.kfree p).blocks.table = k.blocks.table := kfree_table k p
  refine ⟨htable.symm ▸ h.nodup, htable.symm ▸ h.nonnull, ?_⟩
  refine owns_kfree_held (x := .task p) h.owns (.inr hp) fun x hx => ?_
  have howner : x.owner ∈ k.blocks.table := htable ▸ hx
  refine ⟨.inl howner, ?_⟩
  intro he
  rw [he] at howner
  exact h.outside howner

/-! ### The operations -/

section
variable (h : k.blocks.Owned) {block : Nat} {fill : BitVec 32 → Proc}
include h

theorem owned_newTask_null (hp : (k.newTask block fill).2 = 0) :
    (k.newTask block fill).1.blocks.Owned := by
  unfold newTask at hp ⊢
  dsimp only at hp ⊢
  split at hp
  case isTrue hnull =>
    rw [if_pos hnull]
    exact owned_kmalloc h block
  case isFalse hnull => exact absurd hp hnull

theorem making_newTask (hp : (k.newTask block fill).2 ≠ 0)
    (hfill : ∀ pid, (fill pid).kernelStack = 0) :
    Making (k.newTask block fill).1.blocks (k.newTask block fill).2
      {.task (k.newTask block fill).2, .stack (k.newTask block fill).2} := by
  unfold newTask at hp ⊢
  dsimp only at hp ⊢
  split at hp
  · exact absurd rfl hp
  case isFalse hnull =>
    rw [if_neg hnull]
    have hplaces : (k.kmalloc block).1.blocks.places = k.blocks.places := by
      unfold Blocks.places
      rw [show (k.kmalloc block).1.blocks.table = k.blocks.table from kmalloc_table k block]
    have hfresh := kmalloc_fresh h.owns hnull
    rw [← hplaces] at hfresh
    exact making_new (k := {(k.kmalloc block).1 with nextPid := _}) (owned_kmalloc h block) hnull
      hfresh fun _ => hfill _

theorem newTask_outside (hp : (k.newTask block fill).2 ≠ 0)
    (hfill : ∀ pid, (fill pid).kernelStack = 0) : (k.newTask block fill).2 ∉ k.table := by
  have hout : (k.newTask block fill).2 ∉ (k.newTask block fill).1.table :=
    (making_newTask h hp hfill).outside
  rwa [newTask_table] at hout

end

theorem newTask_procs {block : Nat} {fill : BitVec 32 → Proc} (hp : (k.newTask block fill).2 ≠ 0) :
    ∃ pid, (k.newTask block fill).1.procs (k.newTask block fill).2 = fill pid := by
  unfold newTask at hp ⊢
  dsimp only at hp ⊢
  split at hp
  · exact absurd rfl hp
  case isFalse hnull =>
    rw [if_neg hnull]
    exact ⟨(k.kmalloc block).1.nextPid.setWidth 32, Function.update_self ..⟩

theorem making_initTaskStack (h : Making k.blocks p S) (stack : Nat) (frame : Frame) :
    Making (k.initTaskStack p stack frame).1.blocks p S := by
  unfold initTaskStack
  dsimp only
  split
  · exact making_kmalloc h stack
  case isFalse hstk => exact making_stack h hstk (fun _ => rfl) fun _ => rfl

/-- A task that owns nothing but its record and, perhaps, a stack. -/
theorem making_newTask_bufs (h : k.blocks.Owned) {block : Nat} {fill : BitVec 32 → Proc}
    (hp : (k.newTask block fill).2 ≠ 0) (hstack : ∀ pid, (fill pid).kernelStack = 0)
    (hbufs : ∀ pid i, ((fill pid).mmapVmas i).fileBuf = 0) :
    Making (k.newTask block fill).1.blocks (k.newTask block fill).2
      {x | x.owner = (k.newTask block fill).2} := by
  obtain ⟨pid, hprocs⟩ := newTask_procs hp
  exact making_bufs (making_newTask h hp hstack) fun i => hprocs ▸ hbufs pid i

theorem owned_createProcess (h : k.blocks.Owned) (entry : Bool) (block stack : Nat) :
    (k.createProcess entry block stack).1.blocks.Owned := by
  unfold createProcess
  dsimp only
  split
  · exact h
  split
  case isTrue hp => exact owned_newTask_null h hp
  case isFalse hp =>
    have hmade := making_newTask_bufs h hp (fun _ => rfl) fun _ _ => rfl
    split
    · have hstack := making_initTaskStack hmade stack .zero
      split
      · exact owned_append hstack
      · exact owned_abort hstack rfl
    · exact owned_append hmade

theorem owned_createUserProcess (h : k.blocks.Owned) (entry rsp : BitVec 64)
    (dir block stack : Nat) :
    (k.createUserProcess entry rsp dir block stack).1.blocks.Owned := by
  unfold createUserProcess
  dsimp only
  split
  · exact h
  split
  case isTrue hp => exact owned_newTask_null h hp
  case isFalse hp =>
    have hmade := making_newTask_bufs h hp (fun _ => rfl) fun _ _ => rfl
    have hstack := making_initTaskStack hmade stack (userFrame entry rsp)
    split
    · rw [← blocks_build _ entry] at hstack
      exact owned_append hstack
    · exact owned_abort hstack rfl

theorem blocks_elfLoadImage (k : Kernel) (load : Load) :
    (k.elfLoadImage load).1.blocks = k.blocks := by
  cases load with
  | refused => rfl
  | abandoned choice => simp [elfLoadImage]
  | loaded choice entry brk =>
    unfold elfLoadImage
    dsimp only
    split
    · simp
    · split <;> simp

theorem owned_elfLoadArgs (h : k.blocks.Owned) (load : Load) (rsp : BitVec 64)
    (block stack : Nat) : (k.elfLoadArgs load rsp block stack).1.blocks.Owned := by
  have himage := blocks_elfLoadImage k load
  unfold elfLoadArgs
  split
  case h_1 k' hload =>
    rw [hload] at himage
    rwa [himage]
  case h_2 k' dir entry brk hload =>
    rw [hload] at himage
    rw [← himage] at h
    have hmade := owned_createUserProcess h entry rsp dir block stack
    split
    case h_1 k'' hcreate =>
      rw [hcreate] at hmade
      rwa [blocks_freePageDirectory]
    case h_2 k'' p hcreate =>
      rw [hcreate] at hmade
      simpa using hmade

theorem owned_spawnUserPathArgs (h : k.blocks.Owned) (parent : Option Nat) (load : Load)
    (rsp : BitVec 64) (block stack : Nat) :
    (k.spawnUserPathArgs parent load rsp block stack).1.blocks.Owned := by
  have hloaded := owned_elfLoadArgs h load rsp block stack
  unfold spawnUserPathArgs
  dsimp only
  split
  · exact hloaded
  · simpa using hloaded

theorem making_dupBufs {child : Nat} (h : Making k.blocks child {.task child, .stack child})
    (hidle : ∀ i, ((k.procs child).mmapVmas i).used = false →
      ((k.procs child).mmapVmas i).fileBuf = 0) (bufs : Fin procMaxVmas → Nat) :
    Making (k.dupBufs child bufs).blocks child {x | x.owner = child} := by
  have htable : (k.dupBufs child bufs).blocks.table = k.blocks.table := dupBufs_table ..
  refine ⟨htable ▸ h.nodup, htable ▸ h.nonnull, h.some, htable ▸ h.outside, ?_⟩
  rw [htable]
  refine owns_mono (owns_dupBufs h.owns hidle) ?_
  intro x hx
  rcases hx with hx | rfl
  · exact .inl (.inl hx)
  cases x with
  | task q => exact .inl (.inr (.inl rfl))
  | stack q => exact .inl (.inr (.inr rfl))
  | buf q i => exact .inr ⟨i, rfl⟩

theorem owned_doFork (h : k.blocks.Owned) {self : Nat} (hself : self ∈ k.table)
    (dirChoice block stack : Nat) (bufs : Fin procMaxVmas → Nat) :
    (k.doFork self dirChoice block stack bufs).1.blocks.Owned := by
  unfold doFork
  dsimp only
  split
  · exact h
  have hdir : (k.allocPageDirectory dirChoice).1.blocks.Owned := by
    rwa [blocks_allocPageDirectory]
  split
  · exact hdir
  split
  case isTrue hp =>
    rw [blocks_freePageDirectory]
    exact owned_newTask_null hdir hp
  case isFalse hp =>
    obtain ⟨pid, hprocs⟩ := newTask_procs hp
    have hidle := fun i => h.owns.idle self i hself
    have hmade := making_dupBufs (making_newTask hdir hp fun _ => rfl)
      (fun i => hprocs ▸ hidle i) bufs
    rw [← blocks_increfPipes _ (k.procs self)] at hmade
    have hstack := making_initTaskStack hmade stack (forkedFrame (k.procs self).frame)
    split
    · refine owned_append ?_
      simpa using hstack
    rw [← blocks_freePageDirectory _ (k.allocPageDirectory dirChoice).2 0] at hstack
    exact owned_abort hstack rfl

theorem owned_doClone (h : k.blocks.Owned) (self : Nat) (fn stack arg flags : BitVec 64)
    (block kstack : Nat) :
    (k.doClone self fn stack arg flags block kstack).1.blocks.Owned := by
  unfold doClone
  dsimp only
  split
  · exact h
  split
  case isTrue hp => exact owned_newTask_null h hp
  case isFalse hp =>
    have hmade := making_newTask_bufs h hp (fun _ => rfl) fun _ _ => rfl
    have hstack := making_initTaskStack hmade kstack (threadFrame fn stack arg)
    split
    · refine owned_append ?_
      simpa using hstack
    · exact owned_abort hstack rfl

theorem owned_of_owns {k' : Kernel} (h : k.blocks.Owned) (htable : k'.table = k.table)
    (howns : k'.blocks.Owns k.blocks.places) : k'.blocks.Owned := by
  have hblocks : k'.blocks.table = k.blocks.table := htable
  have hplaces : k'.blocks.places = k.blocks.places := by
    unfold Blocks.places
    rw [hblocks]
  exact ⟨hblocks ▸ h.nodup, hblocks ▸ h.nonnull, hplaces ▸ howns⟩

section
variable (h : k.blocks.Owned)
include h

theorem owned_doExecve {self : Nat} (hself : self ∈ k.table) (load : Load) (argc sp : BitVec 64) :
    (k.doExecve self load argc sp).1.blocks.Owned := by
  have himage := blocks_elfLoadImage k load
  unfold doExecve
  dsimp only
  split
  · exact h
  split
  case h_1 k' hload =>
    rw [hload] at himage
    rwa [himage]
  case h_2 k' dir entry brk hload =>
    rw [hload] at himage
    rw [← himage] at h
    have htable : k'.table = k.table := congrArg Blocks.table himage
    have hself' : self ∈ k'.table := htable ▸ hself
    have hre := k'.blocks_modify self (reimagedProc · dir brk) (fun _ => rfl) fun _ => rfl
    rw [← hre] at h
    have hdropped := owned_of_owns h (foldl_dropVma_table ..)
      (owns_foldl (fun _ i => owns_dropVma i (hself' : Place.owner (.buf self i) ∈ k'.table))
        h.owns (finRange procMaxVmas))
    rw [blocks_build, blocks_modify _ _ _ (by simp) (by simp)]
    split
    · simpa using hdropped
    · simpa using hdropped

theorem snapshot_spec (file : FileArg) (block : Nat) (readable : Bool) :
    (k.snapshot file block readable).1.blocks.Owned ∧
      (k.snapshot file block readable).1.table = k.table ∧
      ∀ fb snap, (k.snapshot file block readable).2 = some (fb, snap) → fb ≠ 0 →
        (k.snapshot file block readable).1.heap fb = true ∧
          Unheld (k.snapshot file block readable).1.blocks.held k.blocks.places fb := by
  unfold snapshot
  dsimp only
  split
  · split
    · exact ⟨owned_kmalloc h block, kmalloc_table k block, fun _ _ he => nomatch he⟩
    case isFalse hfb =>
      split
      · refine ⟨owned_kmalloc h block, kmalloc_table k block, ?_⟩
        intro fb snap he _
        injection he with he
        injection he with he _
        rw [← he]
        exact kmalloc_fresh h.owns hfb
      · have htable := (kfree_table _ (k.kmalloc block).2).trans (kmalloc_table k block)
        refine ⟨owned_of_owns h htable ?_, htable, fun _ _ he => nomatch he⟩
        exact owns_kfree (owns_kmalloc h.owns block) fun _ => kmalloc_fresh h.owns hfb
  · refine ⟨h, rfl, ?_⟩
    intro fb snap he hne
    injection he with he
    injection he with he _
    exact absurd he.symm hne

theorem owned_doMmap (self : Nat) (length : BitVec 64) (prot : BitVec 32) (file : FileArg)
    (block : Nat) (readable : Bool) :
    (k.doMmap self length prot file block readable).1.blocks.Owned := by
  unfold doMmap
  dsimp only
  split
  · exact h
  have hnext := k.blocks_modify (k.tgLeader self)
    (fun t => {t with mmapNext := mmapStart (k.procs (k.tgLeader self))})
    (fun _ => rfl) fun _ => rfl
  rw [← hnext] at h
  split
  · exact h
  split
  · exact h
  obtain ⟨howned, htable, hfresh⟩ := snapshot_spec h file block readable
  split
  case h_1 k' hsnap =>
    rw [hsnap] at howned
    exact howned
  case h_2 k' fb snap hsnap =>
    rw [hsnap] at howned htable hfresh
    have hset := k'.blocks_modify (k.tgLeader self) (fun t => {t with
        mmapNext := mmapStart (k.procs (k.tgLeader self)) + roundUp length})
      (fun _ => rfl) fun _ => rfl
    rw [← hset] at howned
    refine owned_of_owns howned rfl (owns_setVma (owns_mono howned.owns fun _ hx => hx.1)
      (fun hne => ?_) fun he => nomatch he)
    obtain ⟨hlive, hunheld⟩ := hfresh fb snap rfl hne
    refine ⟨hlive, fun x hx => ?_⟩
    have hx : x.owner ∈ k'.table := hx.1
    rw [hset]
    exact hunheld x (htable ▸ hx : x.owner ∈ _)

theorem owned_doMprotect (self : Nat) (addr length : BitVec 64) (prot : BitVec 32) :
    (k.doMprotect self addr length prot).1.blocks.Owned := by
  have hreprotect (start stop : BitVec 64) (v : Vma) :
      (reprotect start stop prot v).fileBuf = v.fileBuf ∧
        (reprotect start stop prot v).used = v.used := by
    unfold reprotect
    split <;> exact ⟨rfl, rfl⟩
  unfold doMprotect
  dsimp only
  split
  · exact h
  exact owned_of_owns h rfl (owns_modify_regions h.owns (fun _ => rfl)
    (fun t i => (hreprotect _ _ _).1) fun t i => (hreprotect _ _ _).2)

theorem owned_doMunmap {self : Nat} (hself : self ∈ k.table) (addr length : BitVec 64) :
    (k.doMunmap self addr length).1.blocks.Owned := by
  unfold doMunmap
  dsimp only
  split
  · exact h
  refine owned_of_owns h (blind_table.foldl_unmapVma ..) (owns_foldl (fun _ i hk => ?_) h.owns _)
  exact owns_unmapVma _ _ i (tgLeader_mem hself : Place.owner (.buf _ i) ∈ k.table) hk

end

theorem owned_reapFrom (turns : Nat) :
    ∀ (k : Kernel) (i : Nat), k.blocks.Owned → (k.reapFrom turns i).blocks.Owned := by
  induction turns with
  | zero => exact fun _ _ h => h
  | succ turns ih =>
    intro k i h
    unfold reapFrom
    split
    · exact h
    case h_2 p hp =>
      split
      · exact ih _ i (owned_reapEntry h hp)
      · exact ih k (i + 1) h

theorem owned_destroyProcess (h : k.blocks.Owned) (pid : BitVec 64) :
    (k.destroyProcess pid).blocks.Owned := by
  unfold destroyProcess
  split
  · exact h
  case h_2 p hfind =>
    split
    · rw [blocks_wakeWaiters, blocks_modify _ _ _ (by simp) (by simp)]
      exact h
    · exact owned_reapUserProcess h (mem_of_find?_eq_some hfind)

theorem owned_doWaitpid (h : k.blocks.Owned) (self : Nat) (wpid options : BitVec 32) :
    (k.doWaitpid self wpid options).1.blocks.Owned := by
  unfold doWaitpid
  split
  · exact h
  split
  case h_1 zi hfind =>
    have hzi := findIdx?_eq_some_iff_findIdx_eq.mp hfind
    refine owned_reapEntry h ?_
    rw [getD_eq_getElem?_getD, getElem?_eq_getElem hzi.1]
    rfl
  · split
    · simpa using h
    · split
      · exact h
      · simpa using h

end Kernel

/-! ### Runs -/

theorem owned_empty : empty.blocks.Owned := by
  refine ⟨nodup_nil, not_mem_nil, ⟨⟨?_, ?_⟩, ?_, ?_⟩⟩
  · exact fun x hx => absurd hx not_mem_nil
  · exact fun x hx => absurd hx not_mem_nil
  · exact fun p i hp => absurd hp not_mem_nil
  · exact fun f hf => absurd hf not_mem_nil

theorem owned_boot (init : Nat) : (boot init).blocks.Owned := by
  unfold boot initProcess
  dsimp only
  split
  case isTrue hp => exact owned_newTask_null owned_empty hp
  case isFalse hp =>
    exact owned_append (making_newTask_bufs owned_empty hp (fun _ => rfl) fun _ _ => rfl)

theorem owned_quiet {k k' : Kernel} (he : k'.resources = k.resources) (h : k.blocks.Owned) :
    k'.blocks.Owned := (Kernel.blocks_quiet he).symm ▸ h

theorem owned_diverted {k k' : Kernel} {p : Nat} (hd : k.Diverted k' p) (h : k.blocks.Owned) :
    k'.blocks.Owned := (blocks_diverted hd).symm ▸ h

theorem owned_perform {k : Kernel} {op : Op} (hcaller : ∀ p ∈ op.caller, p ∈ k.table)
    (h : k.blocks.Owned) : (perform k op).blocks.Owned := by
  cases op with
  | createProcess => exact owned_createProcess h ..
  | load => exact owned_elfLoadArgs h ..
  | spawn => exact owned_spawnUserPathArgs h ..
  | fork self => exact owned_doFork h (hcaller self rfl) ..
  | clone => exact owned_doClone h ..
  | execve self => exact owned_doExecve h (hcaller self rfl) ..
  | exit self code => exact owned_quiet (k.resources_exit self code true) h
  | waitpid => exact owned_doWaitpid h ..
  | kwait => exact owned_quiet (k.resources_kwait ..) h
  | reapZombies => exact owned_reapFrom _ k 0 h
  | destroyProcess pid => exact owned_destroyProcess h pid
  | mmap => exact owned_doMmap h ..
  | mprotect => exact owned_doMprotect h ..
  | munmap self => exact owned_doMunmap h (hcaller self rfl) ..
  | signal => exact (k.blocks_doSignal ..).symm ▸ h
  | kill => exact owned_quiet (k.resources_doKill ..) h
  | dispatch => exact owned_diverted (k.diverted_signalDispatch ..) h
  | resumed self => exact owned_quiet (k.resources_clearPending self sigcont) h
  | userFault => exact owned_diverted (k.diverted_userFault ..) h
  | sigreturn self => exact owned_quiet (k.resources_doSigreturn self) h
  | sigprocmask => exact owned_quiet (k.resources_doSigprocmask ..) h
  | trap => exact owned_quiet (by simp [perform]) h

theorem owned_step (k : Kernel) (op : Op) (h : k.blocks.Owned) : (step k op).blocks.Owned := by
  unfold step
  split
  case isTrue hcaller => exact owned_perform hcaller h
  case isFalse => exact h

theorem owned_after (init : Nat) (ops : List Op) : (after init ops).blocks.Owned :=
  run_keeps (P := fun k : Kernel => k.blocks.Owned) owned_step _ ops (owned_boot init)

/-- Every buffer stored in a `file_buf` field is stored in one region of one task and is
allocated, and so was every block when it was freed. -/
structure SnapshotsOwned (k : Kernel) : Prop where
  single : ∀ p ∈ k.table, ∀ q ∈ k.table, ∀ i j, ((k.procs p).mmapVmas i).fileBuf ≠ 0 →
    ((k.procs p).mmapVmas i).fileBuf = ((k.procs q).mmapVmas j).fileBuf → p = q ∧ i = j
  live : ∀ p ∈ k.table, ∀ i, ((k.procs p).mmapVmas i).fileBuf ≠ 0 →
    k.heap ((k.procs p).mmapVmas i).fileBuf = true
  frees : ∀ f ∈ k.kfrees, f.live = true

/-- Whatever is mapped, unmapped, forked, cloned, re-imaged, handed over and reaped, a
snapshot has one owner: it is not freed twice and no region refers to a freed one. -/
theorem snapshots_single_owner (init : Nat) (ops : List Op) : SnapshotsOwned (after init ops) := by
  have h := (owned_after init ops).owns
  refine ⟨?_, ?_, h.frees⟩
  · intro p hp q hq i j hne heq
    have hsame := h.exclusive.single (.buf p i) hp (.buf q j) hq hne heq
    injection hsame with hp hi
    exact ⟨hp, hi⟩
  · exact fun p hp i hne => h.exclusive.live (.buf p i) hp hne

end Nyx.Process
