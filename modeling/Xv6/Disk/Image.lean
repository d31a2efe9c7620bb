import Xv6.Disk.Append

/-!
# The image that `mkfs` makes

Between two calls of `iappend` the inodes on the disk are those of the files (`Good`): every inode from 1 to `freeinode`
is in use, has the length of its file, and owns the blocks that hold the file. From this it follows what the image is
when `mkfs` is done (`wp_main`).
-/

namespace Xv6.Disk.Mkfs

open Lib
open Function (update update_apply update_eq_self update_idem update_of_ne update_self)

/-! ## The inode table -/

def table (D : Image) (i : ℕ) : Dinode := if i < ninodes then D.inode i else .zero

abbrev tableAddrs (D : Image) (i : ℕ) : Fin (NDIRECT + 1) → Word := (table D i).addrs

def store (D : Image) (inum : ℕ) (ip : Dinode) : Image :=
  update D (IBLOCK inum) (ip.write (D (IBLOCK inum)) (64 * (inum % IPB)))

section Table

variable {D D' : Image} {inum : ℕ} {d : Dinode}

theorem iblock_lt (h : inum < ninodes) : 1 < IBLOCK inum ∧ IBLOCK inum < BBLOCK 0 ninodes := by
  simp only [IBLOCK, BBLOCK, ninodes, IPB, BSIZE, BPB] at *
  omega

theorem table_congr (h : ∀ b < metablocks, D' b = D b) : table D' = table D := by
  funext i
  unfold table
  split_ifs with hi
  · have hb : IBLOCK i < metablocks := Nat.lt_trans (iblock_lt hi).2 (by decide)
    rw [Image.inode, Image.inode, h _ hb]
  · rfl

theorem table_store (h : inum < ninodes) : table (store D inum d) = update (table D) inum d := by
  funext i
  by_cases hi : i = inum
  · subst hi
    rw [update_self, table, if_pos h, Image.inode, store, update_self]
    exact Dinode.read_write
  · rw [update_of_ne hi]
    unfold table
    split_ifs with hlt
    · rw [Image.inode, Image.inode, store]
      by_cases hb : IBLOCK i = IBLOCK inum
      · rw [hb, update_self]
        refine Dinode.read_write_other ?_
        simp only [IBLOCK, IPB, BSIZE] at *
        omega
      · rw [update_of_ne hb]
    · rfl

theorem store_super (h : inum < ninodes) : store D inum d 1 = D 1 :=
  update_of_ne (Nat.ne_of_lt (iblock_lt h).1) ..

theorem store_other {b : ℕ} (h : b ≠ IBLOCK inum) : store D inum d b = D b := update_of_ne h ..

end Table

/-! ## The invariant -/

/-- **The state between two calls**: the files written so far have the contents `data`. -/
structure Good (s : State) (data : ℕ → List Byte) : Prop where
  holds : Holds s (tableAddrs s.disk) data fun i => (data i).length
  sizes : ∀ i, (table s.disk i).size.toNat = (data i).length
  short : ∀ i, (data i).length ≤ MAXFILE * BSIZE
  types : ∀ i < ninodes, (table s.disk i).type =
    if i = 0 ∨ s.freeinode ≤ i then 0 else if i = ROOTINO then T_DIR else T_FILE
  super : s.disk 1 = superblock.bytes

section Calls

variable {s : State} {data : ℕ → List Byte} {inum : ℕ} {E : Exit → Prop} {d : Dinode}

theorem wp_rinode {Q : Dinode → State → Prop} (hi : inum < ninodes) (hs : s.sectors = size) :
    wp (rinode inum) Q E s ↔ Q (table s.disk inum) s := by
  have hsec : i2b inum < s.sectors := by
    rw [hs]
    exact Nat.lt_trans (iblock_lt hi).2 (by decide)
  rw [rinode, wp_bind, wp_rsect hsec, wp_pure, table, if_pos hi]
  rfl

theorem wp_winode {Q : PUnit → State → Prop} (hi : inum < ninodes) (hs : s.sectors = size) :
    wp (winode inum d) Q E s ↔ Q ⟨⟩ { s with disk := store s.disk inum d } := by
  have hsec : i2b inum < s.sectors := by
    rw [hs]
    exact Nat.lt_trans (iblock_lt hi).2 (by decide)
  rw [winode, wp_bind, wp_rsect hsec, wp_wsect, Nat.max_eq_left hsec]
  rfl

theorem Holds.store {addrs : ℕ → Fin (NDIRECT + 1) → Word} {len : ℕ → ℕ} (h : Holds s addrs data len)
    (hi : inum < ninodes) : Holds { s with disk := store s.disk inum d } addrs data len := by
  have hother (b : ℕ) (hb : metablocks ≤ b) : Mkfs.store s.disk inum d b = s.disk b := by
    refine store_other ?_
    have := (iblock_lt hi).2
    have : BBLOCK 0 ninodes < metablocks := by decide
    omega
  obtain ⟨hf, hl⟩ := h.filled.congr h.behind hother
  refine ⟨hf, ?_, h.behind, h.count, h.sectors⟩
  show Used (loc (Mkfs.store s.disk inum d) addrs) len
  rw [hl]
  exact h.used

/-- **An inode is written** whose addresses and size are those of its file. -/
theorem Good.store {t : State} {data' : ℕ → List Byte} (h : Good s data) (hi : inum < ninodes)
    (hlow : ∀ b < metablocks, t.disk b = s.disk b)
    (hholds : Holds t (update (tableAddrs s.disk) inum d.addrs) data' fun i => (data' i).length)
    (hdata : ∀ i, i ≠ inum → data' i = data i) (hsize : d.size.toNat = (data' inum).length)
    (hshort : (data' inum).length ≤ MAXFILE * BSIZE)
    (htypes : ∀ i < ninodes, (if i = inum then d.type else (table s.disk i).type) =
      if i = 0 ∨ t.freeinode ≤ i then 0 else if i = ROOTINO then T_DIR else T_FILE) :
    Good { t with disk := store t.disk inum d } data' := by
  have htable : table (Mkfs.store t.disk inum d) = update (table s.disk) inum d := by
    rw [table_store hi, table_congr hlow]
  have haddrs : update (tableAddrs s.disk) inum d.addrs = tableAddrs (Mkfs.store t.disk inum d) := by
    funext i
    rw [tableAddrs, htable]
    by_cases hii : i = inum
    · rw [hii, update_self, update_self]
    · rw [update_of_ne hii, update_of_ne hii]
  refine ⟨?_, fun i => ?_, fun i => ?_, fun i hlt => ?_, ?_⟩
  · rw [← haddrs]
    exact hholds.store hi
  · simp only [htable]
    by_cases hii : i = inum
    · rw [hii, update_self, hsize]
    · rw [update_of_ne hii, hdata i hii, h.sizes]
  · by_cases hii : i = inum
    · rw [hii]
      exact hshort
    · rw [hdata i hii]
      exact h.short i
  · simp only [htable]
    rw [← htypes i hlt, update_apply]
    split_ifs <;> rfl
  · exact (store_super (d := d) hi).trans ((hlow 1 (by decide)).trans h.super)

theorem wp_iappend {p : List Byte} (h : Good s data) (hi : inum < ninodes)
    (hroom : s.freeblock + blocks ((data inum).length + p.length) ≤ size + blocks (data inum).length)
    (hE : MAXFILE * BSIZE < (data inum).length + p.length → ∀ e, E e) :
    wp (iappend inum p) (fun _ t => Good t (update data inum (data inum ++ p)) ∧
      t.freeinode = s.freeinode ∧
      t.freeblock + blocks (data inum).length = s.freeblock + blocks ((data inum).length + p.length)) E s := by
  have hself : update (tableAddrs s.disk) inum (table s.disk inum).addrs = tableAddrs s.disk :=
    update_eq_self ..
  have hstart : Holds s (update (tableAddrs s.disk) inum (table s.disk inum).addrs) data
      fun i => (data i).length := by
    rw [hself]
    exact h.holds
  rw [iappend, wp_bind, wp_rinode hi h.holds.sectors, wp_bind, h.sizes]
  refine (wp_iappendLoop (Nat.le_refl _) hstart (h.short inum) hroom hE).mono
    fun r t ⟨hhead, hlen, hmax, hholds, hsame, hcount⟩ => ?_
  obtain ⟨d, off⟩ := r
  simp only at hhead hlen hmax hholds ⊢
  subst hlen
  rw [wp_winode hi hholds.sectors]
  have hbound : MAXFILE * BSIZE < 2 ^ 32 := by decide
  refine ⟨h.store hi hsame.low hholds (fun i hii => update_of_ne hii ..) ?_ ?_ fun i hlt => ?_,
    hsame.freeinode, hcount⟩
  · rw [update_self, List.length_append]
    exact (BitVec.toNat_ofNat ..).trans (Nat.mod_eq_of_lt (by omega))
  · rw [update_self, List.length_append]
    exact hmax
  · rw [hsame.freeinode, ← h.types i hlt]
    split_ifs with hii
    · rw [hii, hhead]
    · rfl

theorem Good.empty (h : Good s data) (hd : data inum = []) : tableAddrs s.disk inum = fun _ => 0 := by
  funext k
  have := h.holds.used inum (.addr k)
  simp only [hd, List.length_nil, Nat.not_lt_zero, iff_false, not_not] at this
  exact BitVec.eq_of_toNat_eq this

theorem wp_ialloc {type : BitVec 16} (h : Good s data) (hlt : s.freeinode < ninodes) (hpos : 0 < s.freeinode)
    (htype : type = if s.freeinode = ROOTINO then T_DIR else T_FILE) (hd : data s.freeinode = []) :
    wp (ialloc type) (fun i t => i = s.freeinode ∧ Good t data ∧ t.freeinode = s.freeinode + 1 ∧
      t.freeblock = s.freeblock) E s := by
  rw [ialloc, wp_bind, wp_get, wp_bind, wp_set, wp_bind, wp_winode hlt (by exact h.holds.sectors), wp_pure]
  have haddrs : update (tableAddrs s.disk) s.freeinode (newInode type).addrs = tableAddrs s.disk := by
    rw [show (newInode type).addrs = tableAddrs s.disk s.freeinode from (h.empty hd).symm, update_eq_self]
  refine ⟨rfl, h.store (t := { s with freeinode := s.freeinode + 1 }) hlt (fun _ _ => rfl) ?_ (fun _ _ => rfl) ?_
    (h.short _) fun i hi => ?_, rfl, rfl⟩
  · rw [haddrs]
    exact ⟨h.holds.filled, h.holds.used, h.holds.behind, h.holds.count, h.holds.sectors⟩
  · rw [hd]
    rfl
  · simp only
    by_cases hii : i = s.freeinode
    · rw [if_pos hii, hii, if_neg (by omega)]
      exact htype
    · have : (i = 0 ∨ s.freeinode ≤ i) ↔ (i = 0 ∨ s.freeinode + 1 ≤ i) := by omega
      rw [if_neg hii, h.types i hi]
      simp only [this]

theorem wp_chunks (chunks : List (List Byte)) (h : Good s data) (hi : inum < ninodes)
    (hroom : s.freeblock + blocks ((data inum).length + chunks.flatten.length) ≤ size + blocks (data inum).length)
    (hE : MAXFILE * BSIZE < (data inum).length + chunks.flatten.length → ∀ e, E e) :
    wp (chunks.forM (iappend inum)) (fun _ t => Good t (update data inum (data inum ++ chunks.flatten)) ∧
      t.freeinode = s.freeinode ∧
      t.freeblock + blocks (data inum).length = s.freeblock + blocks ((data inum).length + chunks.flatten.length)) E s := by
  induction chunks generalizing s data with
  | nil =>
    refine ⟨?_, rfl, rfl⟩
    rw [List.flatten_nil, List.append_nil, update_eq_self]
    exact h
  | cons c cs ih =>
    simp only [List.flatten_cons, List.length_append] at hroom hE ⊢
    have hmono := blocks_mono (show (data inum).length + c.length ≤ (data inum).length + (c.length + cs.flatten.length)
      by omega)
    show wp (iappend inum c >>= fun _ => cs.forM (iappend inum)) _ E s
    rw [wp_bind]
    refine (wp_iappend h hi (by omega) fun hlt => hE (by omega)).mono fun _ t ⟨hg, hfree, hcount⟩ => ?_
    have hlen : (update data inum (data inum ++ c) inum).length = (data inum).length + c.length := by
      rw [update_self, List.length_append]
    have := ih hg (by rw [hlen, Nat.add_assoc]; omega) (by rw [hlen, Nat.add_assoc]; exact hE)
    rw [hlen, update_self, update_idem, List.append_assoc, Nat.add_assoc] at this
    exact this.mono fun _ u ⟨hg', hfree', hcount'⟩ => ⟨hg', hfree'.trans hfree, by omega⟩

end Calls

/-! ## The files -/

def Arg.bytes (f : Arg) : List Byte := (f.chunks.getD []).flatten

/-- The entries of the files, the first of which has inode `i`. -/
def entries : ℕ → List Arg → List Byte
  | _, [] => []
  | i, f :: fs => dirent (BitVec.ofNat 16 i) f.stored ++ entries (i + 1) fs

def rootdir (fs : List Arg) : List Byte := dirent 1 dot ++ dirent 1 dotdot ++ entries 2 fs

def contents (fs : List Arg) : ℕ → List Byte
  | 0 => []
  | 1 => rootdir fs
  | i + 2 => (fs[i]?.map Arg.bytes).getD []

/-- The blocks that the root directory and the files need. -/
def need (fs : List Arg) : ℕ := blocks (16 * (fs.length + 2)) + (fs.map fun f => blocks f.bytes.length).sum

/-- `mkfs` can take the file: its name has no slash, it can be opened, and it is not too long. -/
def Arg.Fine (f : Arg) : Prop :=
  '/'.toUInt8.toBitVec ∉ f.name.1 ∧ f.chunks.isSome ∧ f.bytes.length ≤ MAXFILE * BSIZE

theorem length_dirent {inum : BitVec 16} {name : List Byte} : (dirent inum name).length = 16 := by
  simp [dirent, strncpy]

theorem length_entries {i : ℕ} {fs : List Arg} : (entries i fs).length = 16 * fs.length := by
  induction fs generalizing i with
  | nil => rfl
  | cons f fs ih =>
    rw [entries, List.length_append, length_dirent, ih, List.length_cons]
    omega

theorem length_rootdir {fs : List Arg} : (rootdir fs).length = 16 * (fs.length + 2) := by
  rw [rootdir, List.length_append, List.length_append, length_dirent, length_dirent, length_entries]
  omega

theorem entries_append {i : ℕ} {fs : List Arg} {f : Arg} :
    entries i (fs ++ [f]) = entries i fs ++ dirent (BitVec.ofNat 16 (i + fs.length)) f.stored := by
  induction fs generalizing i with
  | nil => simp [entries]
  | cons g fs ih =>
    rw [List.cons_append, entries, entries, ih, List.append_assoc, List.length_cons]
    congr 4
    omega

/-- **One more file**: an entry in the root directory, and a new inode with the bytes of the file. -/
theorem contents_append {fs : List Arg} {f : Arg} : contents (fs ++ [f]) =
    update (update (contents fs) 1
      (contents fs 1 ++ dirent (BitVec.ofNat 16 (fs.length + 2)) f.stored)) (fs.length + 2) f.bytes := by
  funext i
  match i with
  | 0 => rfl
  | 1 =>
    rw [update_of_ne (by omega), update_self]
    simp only [contents, rootdir, entries_append, List.append_assoc, Nat.add_comm 2]
  | i + 2 =>
    simp only [contents]
    rcases Nat.lt_trichotomy i fs.length with hlt | rfl | hgt
    · rw [update_of_ne (by omega), update_of_ne (by omega), List.getElem?_append_left hlt]
      simp only [contents]
    · rw [update_self]
      simp
    · have hnew : (fs ++ [f])[i]? = none := List.getElem?_eq_none (by rw [List.length_append]; exact hgt)
      rw [update_of_ne (by omega), update_of_ne (by omega), hnew, contents,
        List.getElem?_eq_none (Nat.le_of_lt hgt)]

section Files

variable {s : State} {E : Exit → Prop}

theorem wp_addFile {fs : List Arg} {f : Arg} (h : Good s (contents fs)) (hfree : s.freeinode = fs.length + 2)
    (hblock : s.freeblock = metablocks + need fs) (hn : fs.length + 2 < ninodes)
    (hroom : metablocks + need (fs ++ [f]) ≤ size) (hE : ¬ f.Fine → ∀ e, E e) :
    wp (addFile f) (fun _ t => Good t (contents (fs ++ [f])) ∧ t.freeinode = fs.length + 3 ∧
      t.freeblock = metablocks + need (fs ++ [f])) E s := by
  unfold addFile
  split_ifs with hslash
  · exact hE (fun hf => hf.1 hslash) _
  · cases hc : f.chunks with
    | none => exact hE (fun hf => by simpa [hc] using hf.2.1) _
    | some chunks =>
      have hbytes : chunks.flatten = f.bytes := by rw [Arg.bytes, hc, Option.getD_some]
      have hnone : contents fs (fs.length + 2) = [] := by simp [contents]
      have hroot : (contents fs 1).length = 16 * (fs.length + 2) := length_rootdir
      have hneed : need (fs ++ [f]) + blocks (16 * (fs.length + 2)) =
          need fs + blocks (16 * (fs.length + 2) + 16) + blocks f.bytes.length := by
        simp only [need, List.length_append, List.map_append, List.sum_append, List.length_singleton,
          List.map_singleton, List.sum_singleton]
        rw [show 16 * (fs.length + 1 + 2) = 16 * (fs.length + 2) + 16 by omega]
        omega
      have hmono := blocks_mono (Nat.le_add_right (16 * (fs.length + 2)) 16)
      simp only
      rw [wp_bind]
      refine (wp_ialloc h (by omega) (by omega) (if_neg (by simp only [ROOTINO]; omega)).symm
        (by rw [hfree, hnone])).mono
        fun i t ⟨hi, ht, htfree, htblock⟩ => ?_
      rw [hi, hfree, wp_bind]
      refine (wp_iappend ht (show 1 < ninodes by decide) ?_ ?_).mono fun _ u ⟨hu, hufree, hublock⟩ => ?_
      · rw [hroot, length_dirent]
        omega
      · rw [hroot, length_dirent]
        intro hlong
        simp only [MAXFILE, NDIRECT, NINDIRECT, BSIZE, ninodes] at hlong hn
        omega
      rw [hroot, length_dirent] at hublock
      have hempty : update (contents fs) 1
          (contents fs 1 ++ dirent (BitVec.ofNat 16 (fs.length + 2)) f.stored) (fs.length + 2) = [] := by
        rw [update_of_ne (by omega), hnone]
      have hzero : blocks 0 = 0 := rfl
      have := wp_chunks (E := E) chunks hu hn
        (by
          rw [hempty, hbytes, List.length_nil, hzero, Nat.zero_add]
          omega)
        (by
          rw [hempty, hbytes, List.length_nil, Nat.zero_add]
          exact fun hlong => hE fun hf => absurd hf.2.2 (by omega))
      rw [hempty, hbytes, List.length_nil, hzero, Nat.zero_add, List.nil_append] at this
      refine this.mono fun _ v ⟨hv, hvfree, hvblock⟩ => ⟨?_, by omega, by omega⟩
      rw [contents_append]
      exact hv

theorem wp_files {fs done : List Arg} (h : Good s (contents done)) (hfree : s.freeinode = done.length + 2)
    (hblock : s.freeblock = metablocks + need done) (hn : (done ++ fs).length + 2 ≤ ninodes)
    (hroom : metablocks + need (done ++ fs) ≤ size) (hE : (∃ f ∈ fs, ¬ f.Fine) → ∀ e, E e) :
    wp (fs.forM addFile) (fun _ t => Good t (contents (done ++ fs)) ∧ t.freeinode = (done ++ fs).length + 2 ∧
      t.freeblock = metablocks + need (done ++ fs)) E s := by
  induction fs generalizing s done with
  | nil =>
    rw [List.append_nil]
    exact ⟨h, hfree, hblock⟩
  | cons f fs ih =>
    have happ : done ++ f :: fs = done ++ [f] ++ fs := by rw [List.append_assoc, List.singleton_append]
    rw [happ] at hn hroom ⊢
    have hmono : need (done ++ [f]) ≤ need (done ++ [f] ++ fs) := by
      simp only [need, List.map_append, List.sum_append, List.length_append]
      have := blocks_mono (show 16 * (done.length + [f].length + 2) ≤ 16 * (done.length + [f].length + fs.length + 2) by
        omega)
      omega
    show wp (addFile f >>= fun _ => fs.forM addFile) _ E s
    rw [wp_bind]
    refine (wp_addFile h hfree hblock ?_ (by omega) fun hf => hE ⟨f, by simp, hf⟩).mono
      fun _ t ⟨ht, htfree, htblock⟩ => ?_
    · simp only [List.length_append, List.length_singleton] at hn
      omega
    · refine ih ht ?_ htblock hn hroom fun ⟨g, hg, hbad⟩ => hE ⟨g, List.mem_cons_of_mem _ hg, hbad⟩
      rw [htfree, List.length_append]
      rfl

/-! ## The beginning and the end -/

/-- The state when the image has been zeroed and the super block is written. -/
def zeroed : State := { boot with disk := update boot.disk 1 superblock.bytes, sectors := size }

theorem wp_zeroes {Q : PUnit → State → Prop} (n k : ℕ) (h : Q ⟨⟩ { boot with sectors := k + n }) :
    wp ((List.range' k n).forM fun i => wsect i fun _ => 0) Q E { boot with sectors := k } := by
  induction n generalizing k with
  | zero => exact h
  | succ n ih =>
    show wp (wsect k (fun _ => 0) >>= fun _ => (List.range' (k + 1) n).forM fun i => wsect i fun _ => 0) _ E _
    have hdisk : update boot.disk k (fun _ => 0) = boot.disk := update_eq_self k boot.disk
    rw [wp_bind, wp_wsect, hdisk, Nat.max_eq_right (Nat.le_succ k)]
    exact ih (k + 1) (by rwa [Nat.add_right_comm])

theorem wp_zero {Q : PUnit → State → Prop} (h : Q ⟨⟩ { boot with sectors := size }) : wp zero Q E boot := by
  have hsize : 0 + (nblocks + metablocks + nlog) = size := by decide
  generalize hn : nblocks + metablocks + nlog = n at hsize
  unfold zero
  rw [hn, List.range_eq_range']
  exact wp_zeroes n 0 (by rwa [hsize])

theorem table_zeroed : table zeroed.disk = fun _ => .zero := by
  funext i
  unfold table
  split_ifs with hi
  · rw [Image.inode, show zeroed.disk (IBLOCK i) = boot.disk (IBLOCK i) from
      update_of_ne (Nat.ne_of_gt (iblock_lt hi).1) superblock.bytes boot.disk]
    exact Dinode.read_eq fun j hj => by simp [Dinode.bytes, Dinode.zero, byte, boot]
  · rfl

theorem loc_zeroed : loc zeroed.disk (tableAddrs zeroed.disk) = fun _ => 0 := by
  funext q
  obtain ⟨i, p⟩ := q
  cases p with
  | addr k => simp only [loc, places, spot, tableAddrs, table_zeroed]; rfl
  | entry k => simp only [loc, places, spot, tableAddrs, table_zeroed]; rfl

theorem good_zeroed : Good zeroed fun _ => [] where
  holds := {
    filled := {
      own := by
        rw [loc_zeroed]
        exact ⟨fun _ _ h => absurd rfl h, fun b => by simp [zeroed, boot]; omega⟩
      stored := fun i bn h h0 => by
        rw [loc_zeroed] at h0
        exact absurd rfl h0
      clean := fun b hb => update_of_ne (by rintro rfl; exact absurd hb (by decide)) .. }
    used := fun i p => by simp [loc_zeroed]
    behind := Nat.le_refl _
    count := rfl
    sectors := rfl }
  sizes i := by rw [table_zeroed]; rfl
  short _ := Nat.zero_le _
  types i hi := by
    rw [table_zeroed, if_pos (by simp only [zeroed, boot]; omega)]
    rfl
  super := show update boot.disk 1 superblock.bytes 1 = _ from update_self ..

theorem wp_mkroot (h : Good s fun _ => []) (hfree : s.freeinode = 1) (hblock : s.freeblock = metablocks) :
    wp mkroot (fun _ t => Good t (contents []) ∧ t.freeinode = 2 ∧ t.freeblock = metablocks + need []) E s := by
  have hmeta : metablocks = 29 := rfl
  have hsize : size = 1024 := rfl
  have hneed : need [] = 1 := rfl
  rw [mkroot, wp_bind]
  refine (wp_ialloc h (by rw [hfree]; decide) (by omega) (by rw [hfree]; rfl) rfl).mono
    fun i t ⟨hi, ht, htfree, htblock⟩ => ?_
  rw [hi, hfree, if_pos rfl, wp_bind]
  refine (wp_iappend ht (show 1 < ninodes by decide) ?_ ?_).mono fun _ u ⟨hu, hufree, hublock⟩ => ?_
  · rw [List.length_nil, length_dirent, show blocks (0 + 16) = 1 from rfl]
    omega
  · rw [List.length_nil, length_dirent]
    exact fun hlong => absurd hlong (by decide)
  rw [List.length_nil, length_dirent, show blocks (0 + 16) = 1 from rfl, show blocks 0 = 0 from rfl] at hublock
  rw [List.nil_append] at hu
  have hlen : (update (fun _ => []) 1 (dirent (BitVec.ofNat 16 1) dot) 1 : List Byte).length = 16 := by
    rw [update_self, length_dirent]
  refine (wp_iappend hu (show 1 < ninodes by decide) ?_ ?_).mono fun _ v ⟨hv, hvfree, hvblock⟩ => ⟨?_, by omega, ?_⟩
  · rw [hlen, length_dirent, show blocks (16 + 16) = 1 from rfl, show blocks 16 = 1 from rfl]
    omega
  · rw [hlen, length_dirent]
    exact fun hlong => absurd hlong (by decide)
  · rw [update_self, update_idem] at hv
    have hdata : contents [] = update (fun _ => []) 1
        (dirent (BitVec.ofNat 16 1) dot ++ dirent (BitVec.ofNat 16 1) dotdot) := by
      funext i
      match i with
      | 0 => rfl
      | 1 => rw [update_self]; rfl
      | i + 2 => rw [update_of_ne (by omega)]; rfl
    rw [hdata]
    exact hv
  · rw [hlen, length_dirent, show blocks (16 + 16) = 1 from rfl, show blocks 16 = 1 from rfl] at hvblock
    omega

theorem wp_format : wp format (fun _ t => Good t (contents []) ∧ t.freeinode = 2 ∧
    t.freeblock = metablocks + need []) E boot := by
  rw [format, if_pos (by decide), wp_bind]
  refine wp_zero ?_
  rw [wp_bind, wp_wsect]
  -- the proof goes on for any state with these three properties, and does not compute the image
  have hgood := good_zeroed
  have hfree : zeroed.freeinode = 1 := rfl
  have hblock : zeroed.freeblock = metablocks := rfl
  show wp mkroot _ E zeroed
  generalize zeroed = s at hgood hfree hblock ⊢
  exact wp_mkroot hgood hfree hblock

/-- **The image of `files`**, as `mkfs` leaves it. -/
structure Made (files : List Arg) (t : State) : Prop where
  filled : Filled t.disk (tableAddrs t.disk) (contents files) (metablocks + need files)
  used : Used (loc t.disk (tableAddrs t.disk)) fun i => (contents files i).length
  sizes : ∀ i, (table t.disk i).size.toNat =
    if i = ROOTINO then (16 * (files.length + 2) / BSIZE + 1) * BSIZE else (contents files i).length
  short : ∀ i, (contents files i).length ≤ MAXFILE * BSIZE
  types : ∀ i < ninodes, (table t.disk i).type =
    if i = 0 ∨ files.length + 2 ≤ i then 0 else if i = ROOTINO then T_DIR else T_FILE
  super : t.disk 1 = superblock.bytes
  bits : t.disk (BBLOCK 0 ninodes) = bitmap (metablocks + need files)
  freeinode : t.freeinode = files.length + 2

theorem wp_finish {files : List Arg} (h : Good s (contents files)) (hfree : s.freeinode = files.length + 2)
    (hblock : s.freeblock = metablocks + need files) (hn : files.length + 2 ≤ ninodes)
    (hroom : metablocks + need files ≤ size) : wp finish (fun _ t => Made files t) E s := by
  have hi : 1 < ninodes := by decide
  have hroot : (table s.disk 1).size.toNat = 16 * (files.length + 2) := by
    rw [h.sizes]
    exact length_rootdir
  rw [finish, wp_bind, wp_rinode hi h.holds.sectors, wp_bind, wp_winode hi h.holds.sectors, wp_bind, wp_get]
  generalize hd : ({ table s.disk 1 with size := BitVec.ofNat 32 (((table s.disk 1).size.toNat / BSIZE + 1) * BSIZE) } :
    Dinode) = d
  have haddrs : d.addrs = tableAddrs s.disk 1 := by rw [← hd]
  have hsize : d.size.toNat = (16 * (files.length + 2) / BSIZE + 1) * BSIZE := by
    rw [← hd, hroot]
    refine (BitVec.toNat_ofNat ..).trans (Nat.mod_eq_of_lt ?_)
    simp only [BSIZE, ninodes] at hn ⊢
    omega
  have hused : s.usedblocks = metablocks + need files := by rw [h.holds.count, hblock]
  have hlt : s.usedblocks < 512 * 8 := by simp only [size] at hroom; omega
  rw [balloc, if_pos hlt, wp_wsect]
  -- neither of the two writes touches a block of a file
  have hother : ∀ b, b ≠ BBLOCK 0 ninodes → update (store s.disk 1 d) (ninodes / IPB + 3) (bitmap s.usedblocks) b =
      store s.disk 1 d b := fun b hb => update_of_ne hb ..
  have hlow : ∀ b, metablocks ≤ b → b ≠ BBLOCK 0 ninodes := fun b hb he => absurd (he ▸ hb) (by decide)
  have htable : table (update (store s.disk 1 d) (ninodes / IPB + 3) (bitmap s.usedblocks)) =
      update (table s.disk) 1 d := by
    rw [← table_store hi]
    funext i
    unfold table
    split_ifs with hlt
    · rw [Image.inode, Image.inode, hother _ (Nat.ne_of_lt (iblock_lt hlt).2)]
    · rfl
  have htaddrs : tableAddrs (update (store s.disk 1 d) (ninodes / IPB + 3) (bitmap s.usedblocks)) =
      tableAddrs s.disk := by
    funext i
    rw [tableAddrs, htable, update_apply]
    split_ifs with hii
    · rw [hii, haddrs]
    · rfl
  have hdata (b : ℕ) (hb : metablocks ≤ b) :
      update (store s.disk 1 d) (ninodes / IPB + 3) (bitmap s.usedblocks) b = s.disk b := by
    rw [hother b (hlow b hb)]
    exact store_other (fun he => absurd (he ▸ hb) (by decide))
  obtain ⟨hf, hl⟩ := h.holds.filled.congr h.holds.behind hdata
  refine ⟨?_, ?_, fun i => ?_, h.short, fun i hlt => ?_, ?_, ?_, hfree⟩
  · rw [htaddrs, ← hblock]
    exact hf
  · rw [htaddrs]
    show Used (loc (update (store s.disk 1 d) (ninodes / IPB + 3) (bitmap s.usedblocks)) _) _
    rw [hl]
    exact h.holds.used
  · simp only [htable, update_apply]
    split_ifs with hii
    · exact hsize
    · exact h.sizes i
  · simp only [htable, update_apply]
    rw [← hfree, ← h.types i hlt]
    split_ifs with hii
    · rw [hii, ← hd]
    · rfl
  · exact (hother 1 (by decide)).trans ((store_super hi).trans h.super)
  · show update (store s.disk 1 d) (ninodes / IPB + 3) (bitmap s.usedblocks) (ninodes / IPB + 3) = _
    rw [update_self, hused]

/-- **`mkfs`**: with room for the inodes and the blocks it makes the image of its files, or stops at a file that it
cannot take. -/
theorem wp_main {files : List Arg} (hn : files.length + 2 ≤ ninodes) (hroom : metablocks + need files ≤ size)
    (hE : (∃ f ∈ files, ¬ f.Fine) → ∀ e, E e) : wp (main files) (fun _ t => Made files t) E boot := by
  rw [main, wp_bind]
  refine wp_format.mono fun _ t ⟨ht, htfree, htblock⟩ => ?_
  rw [wp_bind]
  refine (wp_files ht htfree htblock hn hroom hE).mono fun _ u ⟨hu, hufree, hublock⟩ => ?_
  exact wp_finish hu hufree hublock hn hroom

end Files

/-! ## Well-formed images -/

/-- **The kernel can use the image**: the inodes in use are in the table; the blocks that they refer to are blocks of
data, each referred to once; the bitmap marks these and the metadata; and no block below the end of a file is missing. -/
structure WellFormed (t : State) : Prop where
  inodes : ∀ i, 0 < i → i < t.freeinode → i < ninodes
  data : ∀ q, loc t.disk (tableAddrs t.disk) q ≠ 0 → DataBlock (loc t.disk (tableAddrs t.disk) q)
  once : ∀ q, loc t.disk (tableAddrs t.disk) q ≠ 0 →
    ∃! q', loc t.disk (tableAddrs t.disk) q' = loc t.disk (tableAddrs t.disk) q
  bits : ∀ b < size, t.disk.bit ninodes b = true ↔ b < metablocks ∨ ∃ q, loc t.disk (tableAddrs t.disk) q = b
  noHoles : ∀ i < ninodes, ∀ bn < ((t.disk.inode i).size.toNat + (BSIZE - 1)) / BSIZE,
    ∃ h : bn < MAXFILE, loc t.disk (tableAddrs t.disk) (i, .ofBlock bn h) ≠ 0

variable {files : List Arg} {t : State}

theorem length_root : (contents files ROOTINO).length = 16 * (files.length + 2) := length_rootdir

theorem Made.formatted (h : Made files t) : Formatted t.disk (metablocks + need files) where
  super := Superblock.read_eq fun j _ => by rw [h.super]
  bits j _ := by rw [h.bits]
  behind := Nat.le_add_right ..

theorem Made.blocks (h : Made files t) (hround : (files.length + 2) % 32 ≠ 0) {i bn : ℕ}
    (hbn : bn < ((table t.disk i).size.toNat + (BSIZE - 1)) / BSIZE) : bn * BSIZE < (contents files i).length := by
  rw [h.sizes] at hbn
  split_ifs at hbn with hi
  · rw [hi, length_root]
    simp only [BSIZE] at hbn ⊢
    omega
  · simp only [BSIZE] at hbn ⊢
    omega

theorem Made.missing (h : Made files t) (hround : (files.length + 2) % 32 = 0)
    (hlt : 16 * (files.length + 2) / BSIZE < MAXFILE) :
    loc t.disk (tableAddrs t.disk) (ROOTINO, .ofBlock (16 * (files.length + 2) / BSIZE) hlt) = 0 := by
  by_contra hne
  have hused := (h.used _ _).mp hne
  simp only [Place.first_ofBlock, length_root, BSIZE] at hused
  omega

/-- A root directory that ends at the end of a block has no block behind it, but is as long as if it had one. -/
theorem Made.hole (h : Made files t) (hround : (files.length + 2) % 32 = 0) : ¬ WellFormed t := by
  intro hw
  have hsize : (t.disk.inode ROOTINO).size.toNat = (16 * (files.length + 2) / BSIZE + 1) * BSIZE := h.sizes ROOTINO
  obtain ⟨_, hne⟩ := hw.noHoles ROOTINO (by decide) (16 * (files.length + 2) / BSIZE) (by
    rw [hsize]
    simp only [BSIZE]
    omega)
  exact hne (h.missing hround _)

/-- The blocks are handed out one after the other, so more than `nblocks` of them end in the log. -/
theorem Made.need_le (h : Made files t) (hw : WellFormed t) : need files ≤ nblocks := by
  by_contra hlt
  obtain ⟨hne, q, hq⟩ := (h.filled.own.mem (metablocks + nblocks)).mp ⟨Nat.le_add_right .., by omega⟩
  have hdata := hw.data q (by rwa [hq])
  rw [hq] at hdata
  exact absurd hdata.2 (by decide)

/-- **Well formed.** The image of files that fit into the inode table and on the disk is well formed if and only if they
fit into the data area and the root directory does not end at the end of a block. -/
theorem mkfs_well_formed (hn : files.length + 2 ≤ ninodes) (hsize : metablocks + need files ≤ size)
    (h : main files boot = .ok (⟨⟩, t)) :
    WellFormed t ↔ need files ≤ nblocks ∧ (files.length + 2) % (BSIZE / 16) ≠ 0 := by
  have hmade : Made files t := (wp_main (E := fun _ => True) hn hsize fun _ _ => trivial).ok h
  have hown := hmade.filled.own
  refine ⟨fun hw => ⟨hmade.need_le hw, fun hround => hmade.hole hround hw⟩, fun ⟨hfit, hround⟩ => ?_⟩
  have hend : metablocks + need files ≤ size - nlog := Nat.add_le_add_left hfit metablocks
  refine ⟨fun i _ hi => ?_, fun q hq => ?_, fun q hq => ?_, fun b hb => ?_, fun i hi bn hbn => ?_⟩
  · rw [hmade.freeinode] at hi
    omega
  · have := hmade.filled.lt hq
    exact ⟨this.1, Nat.lt_of_lt_of_le this.2 hend⟩
  · exact hown.existsUnique (hown.held hq)
  · rw [hmade.formatted.bit hb, decide_eq_true_eq]
    have hmem := hown.mem b
    rw [Set.mem_Ico] at hmem
    constructor
    · intro hlt
      by_cases hlow : b < metablocks
      · exact .inl hlow
      · exact .inr (hmem.mp ⟨Nat.le_of_not_lt hlow, hlt⟩).2
    · rintro (hlow | hq)
      · omega
      · by_cases h0 : b = 0
        · rw [h0]
          exact Nat.lt_of_lt_of_le (by decide) (Nat.le_add_right metablocks _)
        · exact (hmem.mpr ⟨h0, hq⟩).2
  · have htable : t.disk.inode i = table t.disk i := by rw [table, if_pos hi]
    rw [htable] at hbn
    have hlt := hmade.blocks hround hbn
    have hmax : bn < MAXFILE := by
      have := hmade.short i
      exact Nat.lt_of_mul_lt_mul_right (Nat.lt_of_lt_of_le hlt this)
    refine ⟨hmax, (hmade.used i _).mpr ?_⟩
    rw [Place.first_ofBlock]
    exact hlt

/-- A file with the one letter name number `k`. -/
def letter (k : ℕ) (bytes : List Byte) : Arg :=
  ⟨⟨[BitVec.ofNat 8 (k % 30 + 65)], by
    intro h
    have := congrArg BitVec.toNat (List.mem_singleton.mp h)
    rw [BitVec.toNat_ofNat] at this
    change 0 = _ at this
    omega⟩, some [bytes]⟩

theorem letter_fine {k : ℕ} {bytes : List Byte} (h : bytes.length ≤ MAXFILE * BSIZE) : (letter k bytes).Fine := by
  refine ⟨fun hs => ?_, rfl, ?_⟩
  · have := congrArg BitVec.toNat (List.mem_singleton.mp hs)
    rw [BitVec.toNat_ofNat] at this
    change (47 : ℕ) = _ at this
    omega
  · simpa [letter, Arg.bytes] using h

theorem letter_bytes {k : ℕ} {bytes : List Byte} : (letter k bytes).bytes = bytes := by simp [letter, Arg.bytes]

theorem end_le_size (h : need files ≤ nblocks) : metablocks + need files ≤ size :=
  Nat.le_trans (Nat.add_le_add_left h metablocks) (by decide)

theorem main_returns (hn : files.length + 2 ≤ ninodes) (hfit : need files ≤ nblocks) (hfine : ∀ f ∈ files, f.Fine) :
    ∃ t, main files boot = .ok (⟨⟩, t) ∧ Made files t := by
  obtain ⟨_, t, ht, hmade⟩ := (wp_main hn (end_le_size hfit) fun ⟨f, hf, hbad⟩ => (hbad (hfine f hf)).elim).returns
  exact ⟨t, ht, hmade⟩

/-- Two files, the second with an indirect block. -/
theorem mkfs_well_formed_two : ∃ t, main [letter 0 [1, 2, 3], letter 1 (List.replicate 7000 0)] boot = .ok (⟨⟩, t) ∧
    WellFormed t := by
  have hfit : need [letter 0 [1, 2, 3], letter 1 (List.replicate 7000 0)] ≤ nblocks := by
    simp only [need, List.map_cons, List.map_nil, letter_bytes, List.length_replicate]
    decide
  have hfine : ∀ f ∈ [letter 0 [1, 2, 3], letter 1 (List.replicate 7000 0)], f.Fine := by
    intro f hf
    rcases List.mem_cons.mp hf with rfl | hf
    · exact letter_fine (by decide)
    · obtain rfl := List.mem_singleton.mp hf
      exact letter_fine (by rw [List.length_replicate]; decide)
  obtain ⟨t, ht, -⟩ := main_returns (by decide) hfit hfine
  exact ⟨t, ht, (mkfs_well_formed (by decide) (end_le_size hfit) ht).mpr ⟨hfit, by decide⟩⟩

/-- **A hole in the root directory**: with 30 files it has 32 entries, which fill one block, but its size is rounded up
to two blocks, and there is no second block. -/
theorem root_has_hole : ∃ t, main ((List.range 30).map fun k => letter k []) boot = .ok (⟨⟩, t) ∧
    (t.disk.inode ROOTINO).size.toNat = 2 * BSIZE ∧
    loc t.disk (tableAddrs t.disk) (ROOTINO, .ofBlock 1 (by decide)) = 0 ∧ ¬ WellFormed t := by
  have hfit : need ((List.range 30).map fun k => letter k []) ≤ nblocks := by
    simp only [need, List.map_map, Function.comp_def, letter_bytes, List.length_map, List.length_range]
    decide
  have hfine : ∀ f ∈ (List.range 30).map fun k => letter k [], f.Fine := by
    intro f hf
    obtain ⟨k, -, rfl⟩ := List.mem_map.mp hf
    exact letter_fine (Nat.zero_le _)
  have hlen : ((List.range 30).map fun k => letter k []).length = 30 := by rw [List.length_map, List.length_range]
  obtain ⟨t, ht, hmade⟩ := main_returns (by rw [hlen]; decide) hfit hfine
  have hround := congrArg (fun n => (n + 2) % 32) hlen
  refine ⟨t, ht, ?_, ?_, hmade.hole hround⟩
  · have hsize := hmade.sizes ROOTINO
    rwa [if_pos rfl, hlen] at hsize
  · have hhole := hmade.missing hround (by rw [hlen]; decide)
    simp only [hlen] at hhole
    exact hhole

end Xv6.Disk.Mkfs
