import Nyx.Ext2.Checks
import Nyx.Ext2.Traversal

/-! The driver computes what the operations on volumes say, however its buffers are handed out.

Each function of the driver has one lemma here: what it yields, and the roles of the buffers it
touches. A function that works on a buffer while it calls others is right because these touch
other roles. -/
namespace Nyx.Ext2.Driver
open Nyx.Lib Nyx.Lib.Buffers Volume Set Inode List

variable {g : Geometry} {B : Buffers (Fin 5) Bytes} {v : Volume}

/-! ### Descriptors and inodes -/

theorem readBlockGroupBgd_yields (group : Nat) : Yields [] {metaBuf} v
    (readBlockGroupBgd g group : Run B Bytes) (v.readBlockGroupBgd g group, v) := by
  rw [readBlockGroupBgd]
  refine .attempt (bgdPlace_ok group) ?_
  refine .buffer rfl unheld fun buf hbuf => ?_
  refine .fetch hbuf unheld ?_
  refine .load (.last ?_)
  exact .attempt (sliceAt_ok (bgdOffset_le group)) (.pure _)

theorem writeBgd_yields (group : Nat) (bgd : Bytes) : Yields [] {metaBuf} v
    (writeBgd g group bgd : Run B Unit) ((), v.writeBgd g group bgd) := by
  rw [writeBgd]
  refine .attempt (bgdPlace_ok group) ?_
  refine .buffer rfl unheld fun buf hbuf => ?_
  refine .fetch hbuf unheld ?_
  refine .load ?_
  refine .attempt (putAt_ok (bgdOffset_le group)) ?_
  refine .restore hbuf unheld (.last ?_)
  exact .flush (.pure _)

variable (ino : BitVec 32)

theorem inodePlace_yields : Yields [] {metaBuf} v (inodePlace g ino : Run B (BitVec 32 × Nat))
    ((v.inodePlace g ino, inodeOffset g ino), v) := by
  have hgroup : g.inodesPerGroup ≠ 0 := g.inodes_pos.ne'
  have hsize : g.inodeSize ≠ 0 := by
    have := g.inodeSize_ge
    omega
  have hper : g.blockSize / g.inodeSize ≠ 0 := (Nat.div_pos g.inodeSize_le (by omega)).ne'
  rw [inodePlace]
  refine .attempt (div_ok hgroup) (.attempt (rem_ok hgroup) ?_)
  refine .call (readBlockGroupBgd_yields _) unheld subset_rfl ?_
  exact .attempt (div_ok hsize) (.attempt (div_ok hper) (.attempt (rem_ok hper) (.pure _)))

theorem readInode_yields : Yields [] {metaBuf} v
    (readInode g ino : Run B (Option Bytes)) (v.readInode g ino, v) := by
  rw [readInode, Volume.readInode]
  refine .ite_fst (fun _ => .pure none) fun _ => ?_
  refine .call (inodePlace_yields ino) unheld subset_rfl ?_
  refine .buffer rfl unheld fun buf hbuf => ?_
  refine .fetch hbuf unheld ?_
  refine .load ?_
  exact .attempt (sliceAt_ok (inodeOffset_le ino)) (.pure _)

theorem writeInode_yields (inode : Bytes) : Yields [] univ v (writeInode g ino inode : Run B Bool)
    ((v.writeInode g ino inode).2, (v.writeInode g ino inode).1) := by
  rw [writeInode, Volume.writeInode]
  refine .ite_swap (fun _ => .pure false) fun _ => ?_
  refine .seq (inodePlace_yields ino) ?_
  refine .buffer (mem_univ _) unheld fun buf hbuf => ?_
  refine .fetch (mem_univ _) unheld ?_
  refine .load ?_
  refine .attempt (putAt_ok (inodeOffset_le ino)) ?_
  refine .restore (mem_univ _) unheld ?_
  exact .flush (.pure _)

theorem writeInode_succeeds {ino : BitVec 32} (hino : ino ≠ 0) (inode : Bytes) :
    (v.writeInode g ino inode).2 = true := by
  rw [Volume.writeInode, if_neg hino]

theorem bgdAdjustDirCount_yields (up : Bool) : Yields [] univ v
    (bgdAdjustDirCount g up : Run B Unit) ((), v.bgdAdjustDirCount g up) := by
  rw [bgdAdjustDirCount]
  refine .seq (readBlockGroupBgd_yields 0) ?_
  exact (writeBgd_yields 0 _).univ

theorem syncSuperblock_yields : Yields [] univ v
    (syncSuperblock g : Run B Unit) ((), v.syncSuperblock g) := .last (.act (.pure _))

theorem discard_yields {α : Type} {touched : Set (Fin 5)} {p : Run B α} {r : α × Volume}
    (h : Yields [] touched v p r) : Yields [] touched v (discard p) ((), r.2) := by
  rw [discard, LawfulFunctor.map_const, Function.comp_apply, ← bind_pure_comp]
  exact .call h unheld subset_rfl (.pure _)

/-! ### Reading -/

section
variable {α : Type} {held : List (B.Handle × Bytes)} {k : Bool → Run B α} {r : α × Volume}

/-- The end of every case of `ext2_read_inode_block`: the block is read if there is one. -/
theorem readPointer_yields {b : BitVec 32} {h : B.Handle}
    (hfree : ∀ x ∈ held, B.role x.1 ≠ B.role h)
    (hnone : pointer b = none → Yields [] univ v (k false) r)
    (hsome : ∀ b', pointer b = some b' → Yields [(h, v.readBlock g b')] univ v (k true) r) :
    Yields held univ v
      ((if b = 0 then Pure.pure false else do readBlock g b h; Pure.pure true) >>= k) r := by
  by_cases hzero : b = 0
  case pos =>
    rw [if_pos hzero, pure_bind]
    exact (hnone (if_pos hzero)).weaken subset_rfl (nil_subset _)
  rw [if_neg hzero, bind_assoc]
  refine .fetch (mem_univ _) hfree ?_
  rw [pure_bind]
  refine (hsome b (if_neg hzero)).weaken subset_rfl ?_
  exact cons_subset_cons _ (nil_subset _)

/-- A table of block numbers is read into a buffer of its own, if there is one. -/
theorem readTable_yields {b : BitVec 32} {role : Fin 5} {rest : B.Handle → Run B Bool}
    (hfree : ∀ x ∈ held, B.role x.1 ≠ role)
    (hnone : b = 0 → Yields [] univ v (k false) r)
    (hsome : b ≠ 0 → ∀ buf, B.role buf = role →
      Yields ((buf, v.readBlock g b) :: held) univ v (rest buf >>= k) r) :
    Yields held univ v ((if b = 0 then Pure.pure false
        else do
          let buf ← Prog.buffer role
          readBlock g b buf
          rest buf) >>= k) r := by
  by_cases hzero : b = 0
  case pos =>
    rw [if_pos hzero, pure_bind]
    exact (hnone hzero).univ
  rw [if_neg hzero, bind_assoc]
  refine .buffer (mem_univ _) hfree fun buf hbuf => ?_
  rw [bind_assoc]
  exact .fetch (mem_univ _) (hbuf ▸ hfree) (hsome hzero buf hbuf)

theorem four_mul_ptrsPerBlock (g : Geometry) : 4 * g.ptrsPerBlock = g.blockSize := by
  rcases g.blockSize_eq with h | h | h <;> simp [Geometry.ptrsPerBlock, h]

theorem readInodeBlock_yields {inode : Bytes} {iblock : BitVec 32} {h : B.Handle}
    (hrole : B.role h = blockBuf)
    (hnone : v.inodeBlock g inode iblock = none → Yields [] univ v (k false) r)
    (hsome : ∀ b, v.inodeBlock g inode iblock = some b →
      Yields [(h, v.readBlock g b)] univ v (k true) r) :
    Yields [] univ v (readInodeBlock g inode iblock h >>= k) r := by
  have hptrs := four_mul_ptrsPerBlock g
  simp only [inodeBlock] at hnone hsome
  simp only [readInodeBlock]
  by_cases hdirect : iblock.toNat < 12
  case pos =>
    simp only [if_pos hdirect] at hnone hsome ⊢
    rw [bind_assoc]
    refine .attempt (blockAt_ok (by omega)) ?_
    exact readPointer_yields unheld hnone hsome
  simp only [if_neg hdirect] at hnone hsome ⊢
  by_cases hsingle : iblock.toNat - 12 < g.ptrsPerBlock
  case pos =>
    simp only [if_pos hsingle] at hnone hsome ⊢
    rw [bind_assoc]
    refine .attempt (blockAt_ok (by omega)) ?_
    refine readTable_yields unheld (fun hzero => hnone ?_) fun htable buf hbuf => ?_
    · rw [pointer, if_pos hzero]
      rfl
    rw [pointer, if_neg htable] at hnone hsome
    rw [bind_assoc]
    refine .load ?_
    rw [bind_assoc]
    refine .attempt (u32At_ok (by omega)) ?_
    refine readPointer_yields ?_ hnone hsome
    simp [hbuf, hrole, auxBuf, blockBuf]
  simp only [if_neg hsingle] at hnone hsome ⊢
  by_cases hdouble : iblock.toNat - 12 - g.ptrsPerBlock < g.ptrsPerBlock * g.ptrsPerBlock
  case neg =>
    simp only [if_neg hdouble] at hnone ⊢
    rw [pure_bind]
    exact hnone trivial
  have hpos : g.ptrsPerBlock ≠ 0 := by
    have := g.blockSize_ge
    omega
  have hquot := Nat.div_lt_of_lt_mul hdouble
  have hrem := Nat.mod_lt (iblock.toNat - 12 - g.ptrsPerBlock) (Nat.pos_of_ne_zero hpos)
  simp only [if_pos hdouble] at hnone hsome ⊢
  rw [bind_assoc]
  refine .attempt (blockAt_ok (by omega)) ?_
  refine readTable_yields unheld (fun hzero => hnone ?_) fun htable buf hbuf => ?_
  · rw [pointer, if_pos hzero]
    rfl
  rw [pointer, if_neg htable] at hnone hsome
  rw [bind_assoc]
  refine .attempt (div_ok hpos) ?_
  rw [bind_assoc]
  refine .load ?_
  rw [bind_assoc]
  refine .attempt (u32At_ok (by omega)) ?_
  refine readTable_yields ?_ (fun hzero => hnone ?_) fun hsecond buf' hbuf' => ?_
  · simp [hbuf, auxBuf, aux2Buf]
  · change (pointer _).bind _ = none
    rw [pointer, if_pos hzero]
    rfl
  change (pointer _).bind _ = none → _ at hnone
  change ∀ b, (pointer _).bind _ = some b → _ at hsome
  rw [pointer, if_neg hsecond] at hnone hsome
  rw [bind_assoc]
  refine .attempt (rem_ok hpos) ?_
  rw [bind_assoc]
  refine .load ?_
  rw [bind_assoc]
  refine .attempt (u32At_ok (by omega)) ?_
  refine readPointer_yields ?_ hnone hsome
  simp [hbuf, hbuf', hrole, auxBuf, aux2Buf, blockBuf]

end

section
variable {inode : Bytes} {iblock b : BitVec 32} (h : v.inodeBlock g inode iblock = some b)
include h

/-- Past the blocks that a file can have there are none, which is what ends the loops over the
blocks even when the number of bytes left has wrapped. -/
theorem lt_of_inodeBlock : iblock.toNat + 1 < blockFuel g := by
  rw [blockFuel]
  by_contra hle
  rw [inodeBlock, if_neg (by omega), if_neg (by omega), if_neg (by omega)] at h
  cases h

theorem toNat_add_one_of_inodeBlock : (iblock + 1).toNat = iblock.toNat + 1 := by
  have hlt := lt_of_inodeBlock h
  have hsmall : blockFuel g ≤ 2 ^ 32 := by
    rcases g.blockSize_eq with h | h | h <;> simp [blockFuel, Geometry.ptrsPerBlock, h]
  exact (BitVec.toNat_add ..).trans (Nat.mod_eq_of_lt (hlt.trans_le hsmall))

end

theorem walkBlocks_yields {σ : Type} {dir : Bytes} {clamp : Bool}
    {visit : σ → Bytes → Nat → Checked σ} {visit' : σ → Bytes → Nat → σ} {done : σ → Bool}
    (hvisit : ∀ s blk left, visit s blk left = .ok (visit' s blk left)) :
    ∀ fuel left (iblock : BitVec 32) s, iblock.toNat < blockFuel g →
      blockFuel g ≤ iblock.toNat + fuel →
      Yields [] univ v (walkBlocks g dir clamp visit done fuel left iblock s : Run B σ)
        (v.walkBlocks g dir clamp visit' done fuel left iblock s, v) := by
  intro fuel
  induction fuel with
  | zero =>
    intro left iblock s hlt hfuel
    omega
  | succ fuel ih =>
    intro left iblock s hlt hfuel
    rw [walkBlocks, Volume.walkBlocks]
    refine .ite_fst (fun _ => .pure s) fun _ => ?_
    refine .buffer (mem_univ _) unheld fun buf hbuf => ?_
    refine readInodeBlock_yields hbuf (fun hnone => ?_) fun b hb => ?_
    · rw [hnone]
      exact .pure s
    rw [hb]
    refine .load (.attempt (hvisit ..) ?_)
    refine .ite_fst (fun _ => .pure _) fun _ => ?_
    have hnext := toNat_add_one_of_inodeBlock hb
    have hlast := lt_of_inodeBlock hb
    exact (ih _ (iblock + 1) _ (by omega) (by omega)).univ

/-- The loop over all blocks of a directory. -/
theorem walkAll_yields {σ : Type} {dir : Bytes} {clamp : Bool}
    {visit : Bytes → σ → Nat → Checked (Visit σ)} {visit' : Bytes → σ → Nat → Visit σ}
    {done : σ → Bool}
    (hvisit : ∀ blk s off, Entry g blk off → visit blk s off = .ok (visit' blk s off))
    (left : BitVec 32) (s : σ) :
    Yields [] univ v
      (walkBlocks g dir clamp (fun s blk left => walk g blk left (visit blk) g.blockSize 0 s) done
        (blockFuel g) left 0 s : Run B σ)
      (v.walkBlocks g dir clamp
        (fun s blk left => Ext2.walk g blk left (visit' blk) g.blockSize 0 s) done
        (blockFuel g) left 0 s, v) := by
  refine walkBlocks_yields (fun s blk left => walk_block (hvisit blk) s) _ left 0 s ?_ ?_
  · simp [blockFuel]
  · simp

theorem lookup_yields (dir : Bytes) (component : List (BitVec 8)) : Yields [] univ v
    (lookup g dir component : Run B (Option (BitVec 32))) (v.lookup g dir component, v) :=
  walkAll_yields (fun _ s _ => visitName_ok s) _ none

theorem occupied_yields (dir : Bytes) : Yields [] univ v
    (occupied g dir : Run B Bool) (v.occupied g dir, v) :=
  walkAll_yields (fun _ s _ => visitOther_ok s) _ false

/-! ### Paths -/

variable (path : List (BitVec 8)) {component : List (BitVec 8)} (inode : Bytes)

theorem enter_yields {cur : BitVec 32} (hlen : component.length < maxFilename) : Yields [] univ v
    (enter g cur component : Run B (BitVec 32)) (v.resolveFrom g cur [component], v) := by
  rw [enter, resolveFrom, if_neg (Nat.not_le.mpr hlen)]
  refine .attempt (check_ok hlen) ?_
  refine .ite_fst (fun _ => .pure cur) fun _ => ?_
  refine .seq (readInode_yields cur) ?_
  cases v.readInode g cur with
  | none => exact .pure 0
  | some dir =>
    refine .seq (lookup_yields dir component) ?_
    rw [Option.bind_some]
    cases v.lookup g dir component with
    | none => exact .pure 0
    | some ino => exact .pure ino

theorem resolveChars_yields (rest : List (BitVec 8)) :
    ∀ {cur : BitVec 32} {component : List (BitVec 8)}, component.length < maxFilename →
      slash ∉ component → Yields [] univ v (resolveChars g cur component rest : Run B (BitVec 32))
        (v.resolveFrom g cur (components (component ++ rest)), v) := by
  induction rest with
  | nil =>
    intro cur component hlen hc
    rw [append_nil, components_self hc]
    exact enter_yields hlen
  | cons c rest ih =>
    intro cur component hlen hc
    rw [resolveChars]
    by_cases hslash : c = slash
    case pos =>
      subst hslash
      rw [if_pos rfl, components_slash hc]
      have hsplit := resolveFrom_append (g := g) (v := v) [component] (components rest) cur
      rw [singleton_append] at hsplit
      rw [hsplit]
      refine .seq (enter_yields hlen) ?_
      by_cases hzero : v.resolveFrom g cur [component] = 0
      case pos =>
        rw [if_pos hzero, hzero, resolveFrom_zero]
        exact .pure 0
      rw [if_neg hzero]
      exact ih (by decide) not_mem_nil
    rw [if_neg hslash]
    have hnext : slash ∉ component ++ [c] := by
      simp only [mem_append, List.mem_singleton, not_or]
      exact ⟨hc, Ne.symm hslash⟩
    by_cases hlong : maxFilename - 1 ≤ component.length
    case pos =>
      obtain ⟨first, others, -, hall⟩ := components_append hnext rest
      rw [append_assoc, singleton_append] at hall
      rw [if_pos hlong, hall, resolveFrom, if_pos]
      · exact .pure 0
      · simp only [length_append, length_singleton]
        omega
    rw [if_neg hlong]
    refine .attempt (check_ok hlen) ?_
    have h := @ih cur (component ++ [c])
      (by rw [length_append, length_singleton]; omega) hnext
    rwa [append_assoc, singleton_append] at h

theorem resolvePath_yields : Yields [] univ v
    (resolvePath g path : Run B (BitVec 32)) (v.resolvePath g path, v) := by
  cases path with
  | nil => exact .pure 0
  | cons c rest =>
    simp only [resolvePath, Volume.resolvePath]
    refine .ite_fst (fun _ => .pure 0) fun _ => ?_
    refine .ite_fst (fun _ => .pure rootIno) fun _ => ?_
    exact resolveChars_yields rest (by decide) not_mem_nil

/-! ### The functions that read -/

theorem readdir_yields (maxEntries : BitVec 32) : Yields [] univ v
    (readdir g path maxEntries : Run B (Option (List Volume.Listed)))
    (v.readdir g path maxEntries, v) := by
  rw [readdir, Volume.readdir]
  refine .seq (resolvePath_yields path) ?_
  refine .seq (readInode_yields _) ?_
  cases v.readInode g (v.resolvePath g path) with
  | none => exact .pure none
  | some inode =>
    simp only [Option.bind_some]
    refine .ite_fst (fun _ => ?_) fun _ => .pure none
    exact .seq (walkAll_yields (fun _ s _ => visitListed_ok s) _ []) (.pure _)

theorem readBlocks_yields {inode : Bytes} {maxlen : Nat} :
    ∀ fuel (iblock : BitVec 32) remaining total, iblock.toNat < blockFuel g →
      blockFuel g ≤ iblock.toNat + fuel → total + remaining ≤ maxlen →
      Yields [] univ v
        (readBlocks g inode maxlen fuel iblock remaining total : Run B (List (BitVec 8)))
        (v.readBlocks g inode fuel iblock remaining, v) := by
  intro fuel
  induction fuel with
  | zero =>
    intro iblock remaining total hlt hfuel hroom
    omega
  | succ fuel ih =>
    intro iblock remaining total hlt hfuel hroom
    rw [readBlocks, Volume.readBlocks]
    refine .ite_fst (fun _ => .pure []) fun _ => ?_
    refine .buffer (mem_univ _) unheld fun buf hbuf => ?_
    refine readInodeBlock_yields hbuf (fun hnone => ?_) fun b hb => ?_
    · rw [hnone]
      exact .pure []
    rw [hb]
    refine .load ?_
    refine .attempt (listAt_ok (by omega) (by omega)) ?_
    have hnext := toNat_add_one_of_inodeBlock hb
    have hlast := lt_of_inodeBlock hb
    refine Yields.univ (.seq (ih (iblock + 1) (remaining - min remaining g.blockSize)
      (total + min remaining g.blockSize) (by omega) (by omega) (by omega))
      (.pure _))

theorem readFile_yields (maxlen : BitVec 32) : Yields [] univ v
    (readFile g path maxlen : Run B (Option (List (BitVec 8)))) (v.readFile g path maxlen, v) := by
  rw [readFile, Volume.readFile]
  refine .seq (resolvePath_yields path) ?_
  refine .seq (readInode_yields _) ?_
  cases v.readInode g (v.resolvePath g path) with
  | none => exact .pure none
  | some inode =>
    simp only [Option.bind_some]
    refine .ite_fst (fun _ => ?_) fun _ => .pure none
    refine .seq (readBlocks_yields _ 0 _ 0 ?_ ?_ ?_) (.pure _)
    · simp [blockFuel]
    · simp
    · omega

/-! ### Allocation -/

theorem allocBlock_yields : Yields [] {bitmapBuf, metaBuf} v
    (allocBlock g : Run B (BitVec 32)) ((v.allocBlock g).2, (v.allocBlock g).1) := by
  rw [allocBlock, Volume.allocBlock]
  refine .call (readBlockGroupBgd_yields 0) unheld (by simp) ?_
  refine .buffer (.inl rfl) unheld fun buf hbuf => ?_
  have hmem : B.role buf ∈ ({bitmapBuf, metaBuf} : Set (Fin 5)) := .inl hbuf
  refine .fetch hmem unheld ?_
  refine .load ?_
  refine .attempt (findFreeBit_ok (Nat.min_le_right ..)) ?_
  cases hbit : Volume.findFreeBit (v.readBlock g (Bgd.blockBitmap (v.readBlockGroupBgd g 0)))
    (min g.blocksPerGroup (g.blockSize * 8)) with
  | none => exact .pure 0
  | some bit =>
    have hlt : bit < min g.blocksPerGroup (g.blockSize * 8) :=
      mem_range.mp (mem_of_find?_eq_some hbit)
    refine .act (.act ?_)
    dsimp only
    by_cases hend : v.totalBlocks ≤ v.firstDataBlock + BitVec.ofNat 32 bit
    case pos =>
      rw [if_pos (decide_eq_true hend), if_pos hend]
      exact .pure 0
    rw [if_neg (by simpa using hend), if_neg hend]
    refine .attempt (check_ok (by omega)) ?_
    refine .restore hmem unheld ?_
    refine .flush ?_
    refine .call (writeBgd_yields 0 _) ?_ (by simp) ?_
    · simp [hbuf, bitmapBuf, metaBuf]
    refine .act ?_
    refine .restore hmem unheld ?_
    exact .flush (.pure _)

theorem allocInode_yields : Yields [] univ v
    (allocInode g : Run B (BitVec 32)) ((v.allocInode g).2, (v.allocInode g).1) := by
  rw [allocInode, Volume.allocInode]
  refine .seq (readBlockGroupBgd_yields 0) ?_
  refine .buffer (mem_univ _) unheld fun buf hbuf => ?_
  refine .fetch (mem_univ _) unheld ?_
  refine .load ?_
  refine .attempt (findFreeBit_ok (Nat.min_le_right ..)) ?_
  cases hbit : Volume.findFreeBit (v.readBlock g (Bgd.inodeBitmap (v.readBlockGroupBgd g 0)))
    (min g.inodesPerGroup (g.blockSize * 8)) with
  | none => exact .pure 0
  | some bit =>
    have hlt : bit < min g.inodesPerGroup (g.blockSize * 8) :=
      mem_range.mp (mem_of_find?_eq_some hbit)
    refine .attempt (check_ok (by omega)) ?_
    refine .restore (mem_univ _) unheld ?_
    refine .flush ?_
    refine .call (writeBgd_yields 0 _) ?_ (subset_univ _) ?_
    · simp [hbuf, blockBuf, metaBuf]
    exact .act (.pure _)

/-! ### Freeing -/

theorem freeBlock_yields (b : BitVec 32) : Yields [] {bitmapBuf, metaBuf} v
    (freeBlock g b : Run B Unit) ((), v.freeBlock g b) := by
  rw [freeBlock, Volume.freeBlock]
  refine .act ?_
  refine .ite_snd (fun _ => .pure ()) fun _ => ?_
  refine .call (readBlockGroupBgd_yields 0) unheld (by simp) ?_
  refine .buffer (.inl rfl) unheld fun buf hbuf => ?_
  have hmem : B.role buf ∈ ({bitmapBuf, metaBuf} : Set (Fin 5)) := .inl hbuf
  refine .fetch hmem unheld ?_
  refine .load ?_
  refine .attempt (testAt_ok (by omega)) ?_
  by_cases hset : Bitmap.test (v.readBlock g (Bgd.blockBitmap (v.readBlockGroupBgd g 0)))
    (b - v.firstDataBlock).toNat = true
  case neg =>
    rw [if_neg hset, if_neg hset]
    exact .pure ()
  rw [if_pos hset, if_pos hset]
  refine .restore hmem unheld ?_
  refine .flush ?_
  refine .call (writeBgd_yields 0 _) ?_ (by simp) (.last (.act (.pure _)))
  simp [hbuf, bitmapBuf, metaBuf]

variable (ino : BitVec 32) (now : BitVec 32) {child : List (BitVec 8)} (data : List (BitVec 8))

theorem freeInode_yields : Yields [] univ v
    (freeInode g ino : Run B Unit) ((), v.freeInode g ino) := by
  have hgroup : g.inodesPerGroup ≠ 0 := g.inodes_pos.ne'
  have hindex : inodeIndex g ino < g.inodesPerGroup := Nat.mod_lt _ g.inodes_pos
  have hle := g.inodes_le
  rw [freeInode, Volume.freeInode]
  refine .ite_snd (fun _ => .pure ()) fun _ => ?_
  refine .attempt (a := inodeGroup g ino) (div_ok hgroup) ?_
  refine .attempt (a := inodeIndex g ino) (rem_ok hgroup) ?_
  refine .seq (readBlockGroupBgd_yields _) ?_
  refine .buffer (mem_univ _) unheld fun buf hbuf => ?_
  refine .fetch (mem_univ _) unheld ?_
  refine .load ?_
  refine .attempt (testAt_ok (by omega)) ?_
  by_cases hset : Bitmap.test (v.readBlock g (Bgd.inodeBitmap
    (v.readBlockGroupBgd g (inodeGroup g ino)))) (inodeIndex g ino) = true
  case neg =>
    rw [if_neg hset, if_neg hset]
    exact .pure ()
  rw [if_pos hset, if_pos hset]
  refine .restore (mem_univ _) unheld ?_
  refine .flush ?_
  refine .call (writeBgd_yields 0 _) ?_ (subset_univ _) (.last (.act (.pure _)))
  simp [hbuf, blockBuf, metaBuf]

theorem freeTable_yields {h : B.Handle} {table : Bytes}
    (hrole : B.role h ≠ bitmapBuf ∧ B.role h ≠ metaBuf) :
    Yields [(h, table)] {bitmapBuf, metaBuf} v (freeTable g h : Run B Unit)
      ((), v.freeTable g table) := by
  have hptrs := four_mul_ptrsPerBlock g
  have hfree : ∀ x ∈ [(h, table)], B.role x.1 ∉ ({bitmapBuf, metaBuf} : Set (Fin 5)) := by
    simpa using hrole
  refine .each _ hfree fun i hi v => ?_
  have hlt := mem_range.mp hi
  refine .load ?_
  refine .attempt (u32At_ok (by omega)) ?_
  refine .ite_snd (fun _ => ?_) fun _ => .pure ()
  exact (freeBlock_yields _).weaken subset_rfl (nil_subset _)

theorem freeTables_yields {h : B.Handle} {table : Bytes} (hrole : B.role h = blockBuf) :
    Yields [(h, table)] {bitmapBuf, auxBuf, metaBuf} v (freeTables g h : Run B Unit)
      ((), v.freeTables g table) := by
  have hptrs := four_mul_ptrsPerBlock g
  refine .each _ (by simp [hrole, bitmapBuf, auxBuf, metaBuf, blockBuf]) fun i hi v => ?_
  have hlt := mem_range.mp hi
  refine .load ?_
  refine .attempt (u32At_ok (by omega)) ?_
  refine .ite_snd (fun _ => ?_) fun _ => .pure ()
  refine .buffer (by simp) (by simp [hrole, auxBuf, blockBuf]) fun buf hbuf => ?_
  refine .fetch (by simp [hbuf]) (by simp [hrole, hbuf, auxBuf, blockBuf]) ?_
  have hsub : ({bitmapBuf, metaBuf} : Set (Fin 5)) ⊆ {bitmapBuf, auxBuf, metaBuf} := by
    simp [insert_subset_iff]
  have htable : Yields [(buf, v.readBlock g (table.u32 (4 * i)))] {bitmapBuf, metaBuf} v _ _ :=
    freeTable_yields (g := g) (by simp [hbuf, bitmapBuf, auxBuf, metaBuf])
  refine .bind (htable.weaken subset_rfl (cons_subset_cons _ (nil_subset _))) ?_ hsub ?_
  · simp [hrole, hbuf, bitmapBuf, auxBuf, metaBuf, blockBuf]
  exact (freeBlock_yields _).weaken hsub (nil_subset _)

theorem freeDirect_yields (l : List Nat) (hl : ∀ i ∈ l, i < 15) : ∀ (v : Volume) (inode : Bytes),
    let f := fun (x : Volume × Bytes) i =>
      if block x.2 i ≠ 0 then
        (x.1.freeBlock g (block x.2 i), setBlock x.2 i 0)
      else x
    Yields [] univ v (freeDirect g l inode : Run B Bytes)
      ((l.foldl f (v, inode)).2, (l.foldl f (v, inode)).1) := by
  induction l with
  | nil => exact fun v inode => .pure inode
  | cons i rest ih =>
    intro v inode f
    have hi := hl i (mem_cons_self ..)
    have ih := ih fun j hj => hl j (mem_cons_of_mem _ hj)
    rw [freeDirect, foldl_cons]
    refine .attempt (blockAt_ok hi) ?_
    by_cases hb : block inode i ≠ 0
    case neg =>
      have hstep : f (v, inode) i = (v, inode) := if_neg hb
      rw [if_neg hb, hstep]
      exact ih v inode
    have hstep : f (v, inode) i = _ := if_pos hb
    rw [if_pos hb, hstep]
    refine .seq (freeBlock_yields _) ?_
    exact .attempt (setBlockAt_ok hi) (ih _ _)

theorem freeIndirect_yields : Yields [] univ v (freeIndirect g inode : Run B Bytes)
    ((v.freeIndirect g inode).2, (v.freeIndirect g inode).1) := by
  rw [freeIndirect, Volume.freeIndirect]
  refine .attempt (blockAt_ok (by omega)) ?_
  refine .ite_swap (fun _ => ?_) fun _ => .pure inode
  refine .buffer (mem_univ _) unheld fun buf hbuf => ?_
  refine .fetch (mem_univ _) unheld ?_
  refine .bind (freeTable_yields ?_) ?_ (subset_univ _) ?_
  · simp [hbuf, blockBuf, bitmapBuf, metaBuf]
  · simp [hbuf, blockBuf, bitmapBuf, metaBuf]
  refine .call (freeBlock_yields _) ?_ (subset_univ _) (.last ?_)
  · simp [hbuf, blockBuf, bitmapBuf, metaBuf]
  exact .attempt (setBlockAt_ok (by omega)) (.pure _)

theorem freeDoubleIndirect_yields : Yields [] univ v (freeDoubleIndirect g inode : Run B Bytes)
    ((v.freeDoubleIndirect g inode).2, (v.freeDoubleIndirect g inode).1) := by
  rw [freeDoubleIndirect, Volume.freeDoubleIndirect]
  refine .attempt (blockAt_ok (by omega)) ?_
  refine .ite_swap (fun _ => ?_) fun _ => .pure inode
  refine .buffer (mem_univ _) unheld fun buf hbuf => ?_
  refine .fetch (mem_univ _) unheld ?_
  refine .bind (freeTables_yields hbuf) ?_ (subset_univ _) ?_
  · simp [hbuf, blockBuf, bitmapBuf, auxBuf, metaBuf]
  refine .call (freeBlock_yields _) ?_ (subset_univ _) (.last ?_)
  · simp [hbuf, blockBuf, bitmapBuf, metaBuf]
  exact .attempt (setBlockAt_ok (by omega)) (.pure _)

theorem freeInodeBlocks_yields : Yields [] univ v (freeInodeBlocks g inode : Run B Bytes)
    ((v.freeInodeBlocks g inode).2, (v.freeInodeBlocks g inode).1) := by
  have hdirect : Yields [] univ v (freeDirect g (range 12) inode : Run B Bytes)
      ((v.freeDirect g inode).2, (v.freeDirect g inode).1) :=
    freeDirect_yields (range 12) (fun i hi => by have := mem_range.mp hi; omega) v inode
  rw [freeInodeBlocks]
  refine .seq hdirect ?_
  refine .seq (freeIndirect_yields _) ?_
  exact freeDoubleIndirect_yields _

/-! ### Writing a file -/

theorem withIndirect_yields : Yields [] {bitmapBuf, metaBuf} v
    (withIndirect g inode : Run B (Option Bytes))
    ((v.withIndirect g inode).2, (v.withIndirect g inode).1) := by
  rw [withIndirect, Volume.withIndirect]
  refine .attempt (blockAt_ok (by omega)) ?_
  refine .ite_swap (fun _ => ?_) fun _ => .pure _
  refine .call allocBlock_yields unheld subset_rfl ?_
  obtain ⟨v', b⟩ := v.allocBlock g
  refine .ite_swap (fun _ => .pure none) fun _ => ?_
  exact .attempt (setBlockAt_ok (by omega)) (.pure _)

theorem blockFor_yields (iblock : Nat) : Yields [] {bitmapBuf, auxBuf, metaBuf} v
    (blockFor g inode iblock : Run B (Option (Bytes × BitVec 32)))
    ((v.blockFor g inode iblock).2, (v.blockFor g inode iblock).1) := by
  have hptrs := four_mul_ptrsPerBlock g
  have hsub : ({bitmapBuf, metaBuf} : Set (Fin 5)) ⊆ {bitmapBuf, auxBuf, metaBuf} := by
    simp [insert_subset_iff]
  rw [blockFor, Volume.blockFor]
  by_cases hdirect : iblock < 12
  case pos =>
    rw [if_pos hdirect, if_pos hdirect]
    refine .attempt (blockAt_ok (by omega)) ?_
    refine .ite_swap (fun hold => ?_) fun _ => .pure _
    refine .call allocBlock_yields unheld hsub ?_
    obtain ⟨v', b⟩ := v.allocBlock g
    refine .ite_swap (fun _ => .pure none) fun hb => ?_
    exact .attempt (setBlockAt_ok (by omega)) (.pure _)
  rw [if_neg hdirect, if_neg hdirect]
  refine .ite_swap (fun _ => ?_) fun _ => .pure none
  refine .call (withIndirect_yields inode) unheld hsub ?_
  obtain ⟨v₁, inode₁⟩ := v.withIndirect g inode
  cases inode₁ with
  | none => exact .pure none
  | some inode₁ =>
    refine .attempt (blockAt_ok (by omega)) ?_
    refine .buffer (by simp) unheld fun buf hbuf => ?_
    have hmem : B.role buf ∈ ({bitmapBuf, auxBuf, metaBuf} : Set (Fin 5)) := by simp [hbuf]
    refine .fetch hmem unheld ?_
    refine .load ?_
    refine .attempt (u32At_ok (by omega)) ?_
    refine .ite_swap (fun _ => ?_) fun _ => .pure _
    refine .call allocBlock_yields (by simp [hbuf, bitmapBuf, auxBuf, metaBuf]) hsub ?_
    obtain ⟨v₂, b⟩ := v₁.allocBlock g
    refine .ite_swap (fun _ => .pure none) fun _ => ?_
    refine .load ?_
    refine .attempt (putAt_ok (by omega)) ?_
    refine .restore hmem unheld ?_
    exact .flush (.pure _)

theorem ofList_take (n : Nat) :
    Bytes.ofList (data.take n) = Bytes.zero.put 0 (min data.length n) (.ofList data) := by
  funext i
  rw [Bytes.put, Bytes.ofList, Bytes.ofList, getD_eq_getElem?_getD, getElem?_take]
  by_cases hi : i < min data.length n
  case pos =>
    rw [if_pos (by omega), if_pos ⟨Nat.zero_le _, by omega⟩, Nat.sub_zero,
      getD_eq_getElem?_getD]
  have hnone : (if i < n then data[i]? else none) = none := by
    split
    · exact getElem?_eq_none (by omega)
    · rfl
  rw [hnone, if_neg (by omega)]
  rfl

theorem writeBlocks_yields {len : Nat} : ∀ fuel (v : Volume) (inode : Bytes) (iblock : Nat)
    (data : List (BitVec 8)), data.length ≤ fuel → data.length ≤ len →
    Yields [] univ v (writeBlocks g len (fuel + 1) inode iblock data : Run B (Option Bytes))
      ((Volume.writeBlocks g fuel v inode iblock data).2,
        (Volume.writeBlocks g fuel v inode iblock data).1) := by
  intro fuel
  induction fuel with
  | zero =>
    intro v inode iblock data hfuel hlen
    rw [writeBlocks, if_pos (eq_nil_of_length_eq_zero (by omega))]
    exact .pure _
  | succ fuel ih =>
    intro v inode iblock data hfuel hlen
    rw [writeBlocks, Volume.writeBlocks]
    refine .ite_swap (fun _ => .pure _) fun hdone => ?_
    have hpos : 0 < data.length := length_pos_of_ne_nil hdone
    have hge := g.blockSize_ge
    refine .attempt (check_ok (by omega)) ?_
    refine .buffer (mem_univ _) unheld fun buf hbuf => ?_
    refine .attempt (putAt_ok (by omega)) ?_
    rw [← ofList_take]
    refine .store (mem_univ _) unheld ?_
    refine .call (blockFor_yields inode iblock) ?_ (subset_univ _) ?_
    · simp [hbuf, blockBuf, bitmapBuf, auxBuf, metaBuf]
    obtain ⟨v', found⟩ := v.blockFor g inode iblock
    cases found with
    | none => exact .pure none
    | some found =>
      have hdrop : (data.drop g.blockSize).length = data.length - g.blockSize := length_drop
      have hrest := ih (v'.writeBlock g found.2 (.ofList (data.take g.blockSize))) found.1
        (iblock + 1) (data.drop g.blockSize) (by omega) (by omega)
      exact .flush hrest.univ

theorem writeContents_yields (now : BitVec 32) :
    Yields [] univ v (writeContents g ino data now : Run B (Option (BitVec 32)))
      ((v.writeContents g ino data now).2, (v.writeContents g ino data now).1) := by
  rw [writeContents, Volume.writeContents]
  refine .seq (readInode_yields ino) ?_
  cases v.readInode g ino with
  | none => exact .pure none
  | some inode =>
    refine .ite_swap (fun _ => ?_) fun _ => .pure none
    refine .seq (writeBlocks_yields _ v inode 0 data le_rfl le_rfl) ?_
    obtain ⟨v', written⟩ := Volume.writeBlocks g data.length v inode 0 data
    cases written with
    | none => exact .pure none
    | some inode' =>
      refine .seq (discard_yields (writeInode_yields ino _)) ?_
      exact .seq syncSuperblock_yields (.pure _)

/-! ### Directory entries -/

theorem addToBlocks_yields {parent : Bytes} {name : List (BitVec 8)} {ino : BitVec 32}
    {fileType : BitVec 8} {buf : B.Handle} : ∀ fuel iblock, iblock ≤ 12 → 12 < iblock + fuel →
    Yields [] univ v (addToBlocks g parent name ino fileType buf fuel iblock : Run B (Option Nat))
      (match v.addToBlocks g parent name ino fileType fuel iblock with
        | .inl v' => (none, v')
        | .inr i => (some i, v)) := by
  intro fuel
  induction fuel with
  | zero =>
    intro iblock hle hfuel
    omega
  | succ fuel ih =>
    intro iblock hle hfuel
    rw [addToBlocks, Volume.addToBlocks]
    by_cases hin : iblock < 12 ∧ iblock * g.blockSize < (size parent).toNat
    case neg =>
      rw [if_neg hin, if_neg hin]
      exact .pure _
    rw [if_pos hin, if_pos hin]
    refine .attempt (blockAt_ok (by omega)) ?_
    dsimp only
    by_cases hb : block parent iblock = 0
    case pos =>
      rw [if_pos hb, if_pos hb]
      exact .pure _
    rw [if_neg hb, if_neg hb]
    refine .fetch (mem_univ _) unheld ?_
    refine .load ?_
    refine .attempt (walk_block (fun s off => visitRoom_ok s) none) ?_
    cases Ext2.walk g (v.readBlock g (block parent iblock)) g.blockSize
      (Ext2.visitRoom (v.readBlock g (block parent iblock)) name ino fileType) g.blockSize 0
      none with
    | some blk =>
      refine .restore (mem_univ _) unheld ?_
      exact .flush (.pure none)
    | none => exact (ih (iblock + 1) (by omega) (by omega)).univ

theorem addDirentToParent_yields (parentIno : BitVec 32) (name : List (BitVec 8)) (ino : BitVec 32)
    (fileType : BitVec 8) : Yields [] univ v
    (addDirentToParent g parentIno name ino fileType : Run B Bool)
    ((v.addDirentToParent g parentIno name ino fileType).2,
      (v.addDirentToParent g parentIno name ino fileType).1) := by
  rw [addDirentToParent, Volume.addDirentToParent]
  refine .seq (readInode_yields parentIno) ?_
  cases v.readInode g parentIno with
  | none => exact .pure false
  | some parent =>
    refine .ite_swap (fun _ => .pure false) fun _ => ?_
    by_cases hname : name.length = 0 ∨ maxFilename ≤ name.length
    case pos =>
      rw [if_pos hname, if_pos hname]
      exact .pure false
    rw [if_neg hname, if_neg hname]
    refine .buffer (mem_univ _) unheld fun buf hbuf => ?_
    refine .seq (addToBlocks_yields 13 0 (by omega) (by omega)) ?_
    cases hadd : v.addToBlocks g parent name ino fileType 13 0 with
    | inl v' => exact .seq (discard_yields (writeInode_yields _ _)) (.pure true)
    | inr iblock =>
      refine .ite_swap (fun _ => .pure false) fun _ => ?_
      refine .seq allocBlock_yields ?_
      obtain ⟨v', b⟩ := v.allocBlock g
      refine .ite_swap (fun _ => .pure false) fun _ => ?_
      have hroom : direntHdr + name.length ≤ g.blockSize := by
        have hge := g.blockSize_ge
        simp only [direntHdr, maxFilename] at hname ⊢
        omega
      refine .attempt (check_ok hroom) ?_
      refine .store (mem_univ _) unheld ?_
      refine .flush ?_
      refine .attempt (setBlockAt_ok (by omega)) ?_
      exact Yields.univ (.seq (discard_yields (writeInode_yields _ _)) (.pure true))

/-! ### Creating -/

theorem createFile_yields : Yields [] univ v (createFile g path now : Run B Bool)
    ((v.createFile g path now).2, (v.createFile g path now).1) := by
  rw [createFile, Volume.createFile]
  refine .seq (resolvePath_yields path) ?_
  refine .ite_swap (fun _ => .pure false) fun _ => ?_
  refine .attempt (splitParentChild_ok path) ?_
  cases Volume.splitParentChild path with
  | none => exact .pure false
  | some split =>
    obtain ⟨parentPath, filename⟩ := split
    refine .seq (resolvePath_yields parentPath) ?_
    refine .ite_swap (fun _ => .pure false) fun _ => ?_
    refine .seq allocInode_yields ?_
    obtain ⟨v₁, ino⟩ := v.allocInode g
    refine .ite_swap (fun _ => .pure false) fun hino => ?_
    refine .seq (writeInode_yields ino (newFile now)) ?_
    rw [writeInode_succeeds hino]
    obtain ⟨v₂, _⟩ := v₁.writeInode g ino (newFile now)
    refine .seq (addDirentToParent_yields _ filename ino ftRegFile) ?_
    dsimp only
    obtain ⟨v₃, added⟩ := v₂.addDirentToParent g (v.resolvePath g parentPath) filename ino ftRegFile
    cases added with
    | false => exact .seq (freeInode_yields ino) (.pure false)
    | true => exact .seq syncSuperblock_yields (.pure true)

theorem writeFile_yields (path data : List (BitVec 8)) (created now : BitVec 32) :
    Yields [] univ v (writeFile g path data created now : Run B (Option (BitVec 32)))
      ((v.writeFile g path data created now).2, (v.writeFile g path data created now).1) := by
  rw [writeFile, Volume.writeFile]
  refine .seq (resolvePath_yields path) ?_
  refine .ite_swap (fun _ => writeContents_yields _ data now) fun _ => ?_
  refine .seq (createFile_yields path created) ?_
  obtain ⟨v', made⟩ := v.createFile g path created
  cases made with
  | false => exact .pure none
  | true =>
    refine .seq (resolvePath_yields path) ?_
    refine .ite_swap (fun _ => .pure none) fun _ => ?_
    exact writeContents_yields _ data now

theorem addLink_yields : Yields [] univ v (addLink g ino : Run B Unit) ((), v.addLink g ino) := by
  rw [addLink, Volume.addLink]
  refine .seq (readInode_yields ino) ?_
  cases v.readInode g ino with
  | none => exact .pure ()
  | some inode => exact discard_yields (writeInode_yields _ _)

theorem mkdir_yields : Yields [] univ v
    (mkdir g path now : Run B Bool) ((v.mkdir g path now).2, (v.mkdir g path now).1) := by
  rw [mkdir, Volume.mkdir]
  refine .seq (resolvePath_yields path) ?_
  refine .ite_swap (fun _ => .pure false) fun _ => ?_
  refine .attempt (splitParentChild_ok path) ?_
  cases Volume.splitParentChild path with
  | none => exact .pure false
  | some split =>
    obtain ⟨parentPath, dirname⟩ := split
    refine .seq (resolvePath_yields parentPath) ?_
    refine .ite_swap (fun _ => .pure false) fun _ => ?_
    refine .seq allocInode_yields ?_
    obtain ⟨v₁, ino⟩ := v.allocInode g
    refine .ite_swap (fun _ => .pure false) fun hino => ?_
    refine .seq allocBlock_yields ?_
    obtain ⟨v₂, first⟩ := v₁.allocBlock g
    dsimp only
    refine .ite_swap (fun _ => .seq (freeInode_yields ino) (.pure false)) fun _ => ?_
    refine .buffer (mem_univ _) unheld fun buf hbuf => ?_
    refine .attempt (check_ok (by have := g.blockSize_ge; omega)) ?_
    refine .store (mem_univ _) unheld ?_
    refine .flush (Yields.weaken ?_ (subset_univ univ) (nil_subset _))
    refine .seq (writeInode_yields ino (newDir g first now)) ?_
    rw [writeInode_succeeds hino]
    obtain ⟨v₃, _⟩ := (v₂.writeBlock g first _).writeInode g ino (newDir g first now)
    refine .seq (addDirentToParent_yields _ dirname ino ftDir) ?_
    dsimp only
    obtain ⟨v₄, added⟩ := v₃.addDirentToParent g (v.resolvePath g parentPath) dirname ino ftDir
    cases added with
    | false =>
      refine .seq (discard_yields (freeInodeBlocks_yields _)) ?_
      exact .seq (freeInode_yields ino) (.pure false)
    | true =>
      refine .seq (addLink_yields _) ?_
      refine .seq (bgdAdjustDirCount_yields true) ?_
      exact .seq syncSuperblock_yields (.pure true)

/-! ### Unlinking -/

theorem offset_of_visitChild {blk : Bytes} {limit off : Nat}
    (h : Ext2.walk g blk limit (Ext2.visitChild g blk child) g.blockSize 0 none = some off) :
    off + direntHdr ≤ g.blockSize := by
  have hkept : ∀ off, Ext2.walk g blk limit (Ext2.visitChild g blk child) g.blockSize 0 none =
      some off → off + direntHdr ≤ g.blockSize := by
    refine walk_keeps (P := fun s => ∀ off, s = some off → off + direntHdr ≤ g.blockSize) ?_ _ _
      (fun _ h => by cases h)
    intro s at' hrange hs s' hvisit off hoff
    simp only [Ext2.visitChild] at hvisit
    split at hvisit
    · rcases hvisit with hv | hv <;> cases hv
      exact hs off hoff
    split at hvisit
    · rcases hvisit with hv | hv <;> cases hv
      cases hoff
      exact hrange.header
    · rcases hvisit with hv | hv <;> cases hv
      exact hs off hoff
  exact hkept off h

theorem removeFromBlocks_yields {parent : Bytes} :
    ∀ fuel left iblock, iblock ≤ 12 → 12 < iblock + fuel → Yields [] univ v
      (removeFromBlocks g parent child fuel left iblock : Run B Bool)
      (match v.removeFromBlocks g parent child fuel left iblock with
        | none => (false, v)
        | some v' => (true, v')) := by
  intro fuel
  induction fuel with
  | zero =>
    intro left iblock hle hfuel
    omega
  | succ fuel ih =>
    intro left iblock hle hfuel
    rw [removeFromBlocks, Volume.removeFromBlocks]
    by_cases hstop : left = 0 ∨ 12 ≤ iblock
    case pos =>
      rw [if_pos hstop, if_pos hstop]
      exact .pure false
    rw [if_neg hstop, if_neg hstop]
    refine .attempt (blockAt_ok (by omega)) ?_
    dsimp only
    by_cases hb : block parent iblock = 0
    case pos =>
      rw [if_pos hb, if_pos hb]
      exact .pure false
    rw [if_neg hb, if_neg hb]
    refine .buffer (mem_univ _) unheld fun buf hbuf => ?_
    have hblock : v.inodeBlock g parent (BitVec.ofNat 32 iblock) = some (block parent iblock) := by
      have hn : (BitVec.ofNat 32 iblock).toNat = iblock := by
        rw [BitVec.toNat_ofNat, Nat.mod_eq_of_lt (by omega)]
      rw [inodeBlock, hn, if_pos (by omega), pointer, if_neg hb]
    refine readInodeBlock_yields hbuf (fun hnone => ?_) fun b' hb' => ?_
    · rw [hblock] at hnone
      cases hnone
    obtain rfl : block parent iblock = b' := Option.some.inj (hblock.symm.trans hb')
    refine .load ?_
    refine .attempt (walk_block (fun s off => visitChild_ok s) none) ?_
    cases hfound : Ext2.walk g (v.readBlock g (block parent iblock)) left.toNat
      (Ext2.visitChild g (v.readBlock g (block parent iblock)) child) g.blockSize 0 none with
    | some off =>
      have hoff : off + 8 ≤ g.blockSize := offset_of_visitChild hfound
      refine .attempt (putAt_ok (by omega)) ?_
      refine .restore (mem_univ _) unheld ?_
      exact .flush (.pure true)
    | none =>
      dsimp only
      by_cases hlast : left.toNat < g.blockSize
      case pos =>
        rw [if_pos hlast, if_pos hlast]
        exact .pure false
      rw [if_neg hlast, if_neg hlast]
      exact (ih _ (iblock + 1) (by omega) (by omega)).univ

theorem dropLink_yields (inode : Bytes) (now : BitVec 32) : Yields [] univ v
    (dropLink g ino inode now : Run B Unit) ((), v.dropLink g ino inode now) := by
  rw [dropLink, Volume.dropLink]
  refine .ite_snd (fun _ => ?_) fun _ => .pure ()
  dsimp only
  split
  · refine .seq (freeInodeBlocks_yields _) ?_
    refine .seq (discard_yields (writeInode_yields _ _)) ?_
    exact freeInode_yields ino
  · exact discard_yields (writeInode_yields _ _)

theorem unlinked_yields (inode : Bytes) (parentIno : BitVec 32) (parent : Bytes) (now : BitVec 32) :
    Yields [] univ v
    (unlinked g ino inode parentIno parent now : Run B Unit)
    ((), v.unlinked g ino inode parentIno parent now) := by
  rw [unlinked, Volume.unlinked]
  refine .seq (dropLink_yields ino inode now) ?_
  refine .seq (discard_yields (writeInode_yields _ _)) ?_
  by_cases hdir : isDir inode = true
  case neg =>
    simp only [if_neg hdir]
    exact syncSuperblock_yields
  simp only [if_pos hdir]
  refine .seq (bgdAdjustDirCount_yields false) ?_
  exact syncSuperblock_yields

theorem isFull_yields : Yields [] univ v
    (isFull g inode : Run B Bool) (isDir inode && v.occupied g inode, v) := by
  rw [isFull]
  cases isDir inode with
  | true => exact occupied_yields inode
  | false => exact .pure false

theorem unlink_yields : Yields [] univ v
    (unlink g path now : Run B Bool) ((v.unlink g path now).2, (v.unlink g path now).1) := by
  rw [unlink, Volume.unlink]
  refine .seq (resolvePath_yields path) ?_
  refine .ite_swap (fun _ => .pure false) fun _ => ?_
  refine .seq (readInode_yields _) ?_
  cases v.readInode g (v.resolvePath g path) with
  | none => exact .pure false
  | some inode =>
    refine .seq (isFull_yields inode) ?_
    refine .ite_swap (fun _ => .pure false) fun _ => ?_
    refine .attempt (splitParentChild_ok path) ?_
    cases Volume.splitParentChild path with
    | none => exact .pure false
    | some split =>
      obtain ⟨parentPath, child⟩ := split
      refine .seq (resolvePath_yields parentPath) ?_
      refine .seq (readInode_yields _) ?_
      dsimp only
      cases v.readInode g (v.resolvePath g parentPath) with
      | none => exact .pure false
      | some parent =>
        refine .seq (removeFromBlocks_yields 13 (size parent) 0 (by omega) (by omega)) ?_
        dsimp only
        cases v.removeFromBlocks g parent child 13 (size parent) 0 with
        | none => exact .pure false
        | some v' => exact .seq (unlinked_yields _ _ _ _ now) (.pure true)

/-! ### Calls -/

theorem call_yields (c : Call) : Yields [] univ v (call g c : Run B Reply) (v.call g c) := by
  cases c with
  | resolve path => exact .seq (resolvePath_yields path) (.pure _)
  | readFile path maxlen => exact .seq (readFile_yields path maxlen) (.pure _)
  | readdir path max => exact .seq (readdir_yields path max) (.pure _)
  | createFile path now => exact .seq (createFile_yields path now) (.pure _)
  | writeFile path data created now =>
    exact .seq (writeFile_yields path data created now) (.pure _)
  | mkdir path now => exact .seq (mkdir_yields path now) (.pure _)
  | unlink path now => exact .seq (unlink_yields path now) (.pure _)

theorem calls_yields (cs : List Call) :
    Yields [] univ v (calls g cs : Run B (List Reply)) (Volume.calls g cs v) := by
  induction cs generalizing v with
  | nil => exact .pure []
  | cons c rest ih =>
    refine .seq (call_yields c) ?_
    exact .seq ih (.pure _)

/-- Whatever the image, a sequence of calls ends, and no divisor is 0 and no access out of
bounds on the way. -/
theorem hostile_image_safe (g : Geometry) (v : Volume) (cs : List Call)
    (m : (Buffers.shared (Fin 5) Bytes).Mem) :
    ∃ replies v' m', calls g cs (v, m) = .ok (replies, v', m') := by
  obtain ⟨m', h, -⟩ := calls_yields (g := g) (v := v) cs m unheld
  exact ⟨_, _, m', h⟩

end Nyx.Ext2.Driver
