import Xv6.Bio.Cache
import Xv6.Lib.Transition
import Xv6.Log.Header

/-!
# The log on the disk

`commit` and `recover_from_log` of `log.c` over the buffer cache, with crashes. A step is one iteration of a loop or one
call of `write_head`, so that each step writes at most one sector; between two steps other threads may call `bread` and
`brelse`, and the machine may crash, also during recovery.
-/

namespace Xv6.Journal

open Bio Log

/-! ## The header block -/

def word (b : Block) (k : ℕ) : ℕ := if h : k < 128 then b ⟨k, h⟩ else 0

/-- The block that `write_head` writes over `b`. -/
def putHeader (lh : Logheader) (b : Block) : Block :=
  fun k => if k.val = 0 then lh.n else if k.val ≤ lh.n then lh.sector (k.val - 1) else b k

/-- The header that `read_head` reads. -/
def getHeader (lh : Logheader) (b : Block) : Logheader :=
  ⟨word b 0, fun i => if i < word b 0 then word b (1 + i) else lh.sector i⟩

@[simp] theorem word_putHeader_zero (lh : Logheader) (b : Block) : word (putHeader lh b) 0 = lh.n := by
  simp [word, putHeader]

theorem word_putHeader {lh : Logheader} {i : ℕ} (b : Block) (hi : i < lh.n) (hn : lh.n ≤ LOGSIZE) :
    word (putHeader lh b) (1 + i) = lh.sector i := by
  have h128 : 1 + i < 128 := by simp only [LOGSIZE, MAXOPBLOCKS] at hn; omega
  have hle : 1 + i ≤ lh.n := by omega
  simp [word, putHeader, h128, hle]

theorem sector_getHeader {lh : Logheader} {b : Block} {i : ℕ} (hi : i < word b 0) :
    (getHeader lh b).sector i = word b (1 + i) := by
  simp [getHeader, hi]

/-! ## The machine -/

/-- Where the log is on a disk of `disksize` sectors. -/
structure Geometry where
  start : ℕ
  size : ℕ
  disksize : ℕ
  pos : 0 < size

/-- The image of `mkfs`. -/
def mkfs : Geometry := ⟨994, LOGSIZE, 1024, by decide⟩

/-- The sectors outside the log area. -/
def Geometry.Outside (g : Geometry) (x : ℕ) : Prop := x < g.start ∨ g.start + g.size ≤ x

instance (g : Geometry) (x : ℕ) : Decidable (g.Outside x) := inferInstanceAs (Decidable (_ ∨ _))

/-- The function that calls `install_trans`. -/
inductive Caller
  | commit | recover
  deriving DecidableEq, Repr

/-- The next part of `commit` or `recover_from_log`. -/
inductive Pc
  | idle
  | writeLog (tail : ℕ) | writeHead
  | readHead
  | installTrans (c : Caller) (tail : ℕ) | clear (c : Caller) | eraseHead (c : Caller)
  deriving DecidableEq, Repr

structure State where
  io : Io
  lh : Logheader
  pc : Pc

variable (g : Geometry)

/-- One iteration of `write_log`. -/
def writeLog (lh : Logheader) (tail : ℕ) (m : Io) : Option Io := do
  let (m, dst) ← bread g.disksize m ROOTDEV (g.start + tail + 1)
  let (m, src) ← bread g.disksize m ROOTDEV (lh.sector tail)
  let m ← bwrite g.disksize (m.modify dst (m.buf src).data) dst
  let m ← brelse m src
  brelse m dst

/-- One iteration of `install_trans`. -/
def installTrans (lh : Logheader) (tail : ℕ) (m : Io) : Option Io := do
  let (m, lbuf) ← bread g.disksize m ROOTDEV (g.start + tail + 1)
  let (m, dbuf) ← bread g.disksize m ROOTDEV (lh.sector tail)
  let m ← bwrite g.disksize (m.modify dbuf (m.buf lbuf).data) dbuf
  let m ← brelse m lbuf
  brelse m dbuf

def writeHead (lh : Logheader) (m : Io) : Option Io := do
  let (m, b) ← bread g.disksize m ROOTDEV g.start
  let m ← bwrite g.disksize (m.modify b (putHeader lh (m.buf b).data)) b
  brelse m b

def readHead (lh : Logheader) (m : Io) : Option (Io × Logheader) := do
  let (m, b) ← bread g.disksize m ROOTDEV g.start
  let lh := getHeader lh (m.buf b).data
  let m ← brelse m b
  return (m, lh)

/-- The next part of `commit` or `recover_from_log`. -/
def State.go (s : State) : Option State :=
  match s.pc with
  | .idle => none
  | .writeLog tail =>
    if tail < s.lh.n then (writeLog g s.lh tail s.io).map fun io => ⟨io, s.lh, .writeLog (tail + 1)⟩
    else some { s with pc := .writeHead }
  | .writeHead => (writeHead g s.lh s.io).map fun io => ⟨io, s.lh, .installTrans .commit 0⟩
  | .readHead => (readHead g s.lh s.io).map fun (io, lh) => ⟨io, lh, .installTrans .recover 0⟩
  | .installTrans c tail =>
    if tail < s.lh.n then (installTrans g s.lh tail s.io).map fun io => ⟨io, s.lh, .installTrans c (tail + 1)⟩
    else some { s with pc := .clear c }
  | .clear c => some { s with lh.n := 0, pc := .eraseHead c }
  | .eraseHead _ => (writeHead g s.lh s.io).map fun io => ⟨io, s.lh, .idle⟩

inductive Label
  | bread (dev x : ℕ)
  | logWrite (i : BufIx) (d : Block)   -- the holder of a buffer changes its data and calls `log_write`
  | brelse (i : BufIx)
  | commit
  | go
  | crash

/-- The state after `binit`. -/
def boot (disk : ℕ → Block) : State := ⟨binit disk, .empty, .readHead⟩

def step (s : State) : Label → Option State
  | .bread dev x => (bread g.disksize s.io dev x).map fun (io, _) => { s with io }
  | .logWrite i d =>
    if s.pc = .idle ∧ (s.io.buf i).busy ∧ (s.io.buf i).valid then
      -- the panic "too big a transaction"
      if s.lh.n ≥ LOGSIZE ∨ (s.lh.n : ℤ) ≥ g.size - 1 then none
      else some { s with io := (s.io.modify i d).mark i, lh := s.lh.absorb (s.io.buf i).sector }
    else none
  | .brelse i => (brelse s.io i).map fun io => { s with io }
  | .commit => if s.pc = .idle then some { s with pc := if 0 < s.lh.n then .writeLog 0 else .idle } else none
  | .go => s.go g
  | .crash => some (boot s.io.disk)

/-- Only sectors outside the log area are logged. -/
def LogsOutside (s : State) : Label → Prop
  | .logWrite i _ => g.Outside (s.io.buf i).sector
  | .bread _ _ | .brelse _ | .commit | .go | .crash => True

instance (s : State) (l : Label) : Decidable (LogsOutside g s l) :=
  match l with
  | .logWrite i _ => inferInstanceAs (Decidable (g.Outside (s.io.buf i).sector))
  | .bread _ _ | .brelse _ | .commit | .go | .crash => .isTrue trivial

/-! ## What the parts write -/

variable {g} {m m' : Io} {v : ℕ → Block} {lh lh' : Logheader} {tail x : ℕ} {d : Block}

/-- The sector `x` is written with `d`, and no buffer is dirty for it. -/
structure Wrote (m : Io) (v : ℕ → Block) (x : ℕ) (d : Block) (m' : Io) : Prop where
  coherent : Coherent m' (Function.update v x d)
  disk : m'.disk = Function.update m.disk x d
  dirty : ∀ y, m'.Dirty y ↔ y ≠ x ∧ m.Dirty y

/-- Nothing is written. -/
structure Kept (m : Io) (v : ℕ → Block) (m' : Io) : Prop where
  coherent : Coherent m' v
  disk : m'.disk = m.disk
  dirty : ∀ y, m'.Dirty y ↔ m.Dirty y

theorem Kept.of_bread {i : BufIx} {dev : ℕ} (hc : Coherent m v) (h : bread g.disksize m dev x = some (m', i)) :
    Kept m v m' := by
  obtain ⟨hc', hf, -⟩ := bread_spec hc h
  exact ⟨hc', hf.disk, fun _ => hf.dirty_iff⟩

theorem Kept.of_brelse {i : BufIx} (hc : Coherent m v) (h : brelse m i = some m') : Kept m v m' := by
  obtain ⟨hc', hd, hdirty, -⟩ := brelse_spec hc h
  exact ⟨hc', hd, hdirty⟩

theorem Kept.trans {m₁ m₂ : Io} (h₁ : Kept m v m₁) (h₂ : Kept m₁ v m₂) : Kept m v m₂ :=
  ⟨h₂.coherent, h₂.disk.trans h₁.disk, fun y => (h₂.dirty y).trans (h₁.dirty y)⟩

theorem Kept.wrote {m₁ m₂ : Io} (h₁ : Kept m v m₁) (h₂ : Wrote m₁ v x d m₂) : Wrote m v x d m₂ :=
  ⟨h₂.coherent, by rw [h₂.disk, h₁.disk], fun y => by rw [h₂.dirty, h₁.dirty]⟩

theorem Wrote.kept {m₁ m₂ : Io} (h₁ : Wrote m v x d m₁) (h₂ : Kept m₁ (Function.update v x d) m₂) : Wrote m v x d m₂ :=
  ⟨h₂.coherent, by rw [h₂.disk, h₁.disk], fun y => by rw [h₂.dirty, h₁.dirty]⟩

theorem Wrote.of_bwrite {i : BufIx} {d₀ : Block} (hc : Coherent m v) (hi : Holds m i x d₀)
    (h : bwrite g.disksize (m.modify i d) i = some m') : Wrote m v x d m' := by
  obtain ⟨hc', hd, hdirty, -⟩ := bwrite_spec hc hi h
  exact ⟨hc', hd, hdirty⟩

theorem holds_fetched {i j : BufIx} (hi : Holds m i x d) (hf : Fetched m m' j) : Holds m' i x d := by
  have hij : i ≠ j := by
    rintro rfl
    exact absurd hf.free (by simp [hi.busy])
  have := hf.other i hij
  exact ⟨this ▸ hi.busy, this ▸ hi.valid, this ▸ hi.dev, this ▸ hi.sector, this ▸ hi.data⟩

theorem Wrote.of_copy {m₂ m₃ m₄ : Io} {i j k : BufIx} {d₀ : Block} (h₂ : Kept m v m₂) (hk : Holds m₂ k x d₀)
    (h₃ : bwrite g.disksize (m₂.modify k d) k = some m₃) (h₄ : brelse m₃ i = some m₄) (h : brelse m₄ j = some m') :
    Wrote m v x d m' := by
  have hw := h₂.wrote (.of_bwrite h₂.coherent hk h₃)
  have hk₄ := Kept.of_brelse hw.coherent h₄
  exact hw.kept (hk₄.trans (.of_brelse hk₄.coherent h))

theorem writeLog_spec (hc : Coherent m v) (h : writeLog g lh tail m = some m') :
    Wrote m v (g.start + tail + 1) (v (lh.sector tail)) m' := by
  simp only [writeLog, Option.bind_eq_bind, Option.bind_eq_some_iff] at h
  obtain ⟨⟨m₁, dst⟩, h₁, ⟨m₂, src⟩, h₂, m₃, h₃, m₄, h₄, h⟩ := h
  obtain ⟨hc₁, -, hdst⟩ := bread_spec hc h₁
  obtain ⟨-, hf₂, hsrc⟩ := bread_spec hc₁ h₂
  have hkept := (Kept.of_bread hc h₁).trans (.of_bread hc₁ h₂)
  simp only [hsrc.data] at h₃
  exact .of_copy hkept (holds_fetched hdst hf₂) h₃ h₄ h

theorem installTrans_spec (hc : Coherent m v) (h : installTrans g lh tail m = some m') :
    Wrote m v (lh.sector tail) (v (g.start + tail + 1)) m' := by
  simp only [installTrans, Option.bind_eq_bind, Option.bind_eq_some_iff] at h
  obtain ⟨⟨m₁, lbuf⟩, h₁, ⟨m₂, dbuf⟩, h₂, m₃, h₃, m₄, h₄, h⟩ := h
  obtain ⟨hc₁, -, hlbuf⟩ := bread_spec hc h₁
  obtain ⟨-, hf₂, hdbuf⟩ := bread_spec hc₁ h₂
  have hkept := (Kept.of_bread hc h₁).trans (.of_bread hc₁ h₂)
  simp only [(holds_fetched hlbuf hf₂).data] at h₃
  exact .of_copy hkept hdbuf h₃ h₄ h

theorem writeHead_spec (hc : Coherent m v) (h : writeHead g lh m = some m') :
    Wrote m v g.start (putHeader lh (v g.start)) m' := by
  simp only [writeHead, Option.bind_eq_bind, Option.bind_eq_some_iff] at h
  obtain ⟨⟨m₁, b⟩, h₁, m₂, h₂, h⟩ := h
  obtain ⟨hc₁, -, hb⟩ := bread_spec hc h₁
  simp only [hb.data] at h₂
  have hw := (Kept.of_bread hc h₁).wrote (.of_bwrite hc₁ hb h₂)
  exact hw.kept (.of_brelse hw.coherent h)

theorem readHead_spec (hc : Coherent m v) (h : readHead g lh m = some (m', lh')) :
    Kept m v m' ∧ lh' = getHeader lh (v g.start) := by
  simp only [readHead, Option.bind_eq_bind, Option.bind_eq_some_iff, Option.pure_def, Option.some.injEq,
    Prod.mk.injEq] at h
  obtain ⟨⟨m₁, b⟩, h₁, m₂, h₂, rfl, rfl⟩ := h
  obtain ⟨hc₁, -, hb⟩ := bread_spec hc h₁
  exact ⟨(Kept.of_bread hc h₁).trans (.of_brelse hc₁ h₂), by rw [hb.data]⟩

end Xv6.Journal
