import Xv6.Log.Journal

/-!
# Crash atomicity

At every moment the disk can be recovered to the contents after the transactions whose header has been written
(`Recoverable`): either its header is empty and the home sectors hold these contents, or the header lists sectors whose
contents are in the log, and the other home sectors hold theirs. `Stage` says what holds of the cache and of the
in-memory header besides, for each part of `commit` and `recover_from_log`.
-/

namespace Xv6.Journal

open Function (update update_of_ne update_self)

open Bio Log

/-! ## Transactions -/

/-- The changes that a transaction logs, in order. -/
abbrev Tx := List (ℕ × Block)

/-- A map from sectors to contents after a transaction. -/
def Tx.apply (t : Tx) (f : ℕ → Block) : ℕ → Block := t.foldl (fun f p => update f p.1 p.2) f

/-- The contents of the sectors after a list of transactions. -/
def contents (disk : ℕ → Block) (ts : List Tx) : ℕ → Block := ts.foldl (fun f t => t.apply f) disk

@[simp] theorem Tx.apply_nil (f : ℕ → Block) : Tx.apply [] f = f := rfl

@[simp] theorem Tx.apply_snoc (t : Tx) (x : ℕ) (d : Block) (f : ℕ → Block) :
    Tx.apply (t ++ [(x, d)]) f = update (t.apply f) x d := by
  simp [Tx.apply]

@[simp] theorem contents_snoc (disk : ℕ → Block) (ts : List Tx) (t : Tx) :
    contents disk (ts ++ [t]) = t.apply (contents disk ts) := by
  simp [contents]

theorem Tx.apply_of_not_mem {t : Tx} {f : ℕ → Block} {x : ℕ} (h : ∀ d, (x, d) ∉ t) : t.apply f x = f x := by
  induction t generalizing f with
  | nil => rfl
  | cons p t ih =>
    obtain ⟨y, d⟩ := p
    have hy : x ≠ y := fun he => h d (by simp [he])
    rw [Tx.apply, List.foldl_cons, ← Tx.apply, ih fun d hd => h d (by simp [hd]), update_of_ne hy]

/-- The transactions of a run: those whose header has been written, and the one that is being logged. -/
structure Record where
  committed : List Tx
  current : Tx

/-- A step of the run: a transaction is committed when `write_head` writes its header; a crash loses the current one. -/
def Record.next (R : Record) (s : State) : Label → Record
  | .logWrite i d => { R with current := R.current ++ [((s.io.buf i).sector, d)] }
  | .go => if s.pc = .writeHead then ⟨R.committed ++ [R.current], []⟩ else R
  | .crash => { R with current := [] }
  | .bread _ _ | .brelse _ | .commit => R

def record (tr : List (State × Label)) : Record := tr.foldl (fun R x => R.next x.1 x.2) ⟨[], []⟩

theorem record_snoc (tr : List (State × Label)) (s : State) (l : Label) :
    record (tr ++ [(s, l)]) = (record tr).next s l := by
  simp [record]

/-! ## What holds between two steps -/

/-- The disk can be recovered to `D`. -/
structure Recoverable (g : Geometry) (disk D : ℕ → Block) : Prop where
  bound : word (disk g.start) 0 ≤ LOGSIZE
  entry : ∀ i < word (disk g.start) 0, i + 1 < g.size ∧ g.Outside (word (disk g.start) (1 + i)) ∧
    disk (g.start + i + 1) = D (word (disk g.start) (1 + i))
  home : ∀ x, g.Outside x → (∀ i < word (disk g.start) 0, word (disk g.start) (1 + i) ≠ x) → disk x = D x

/-- The current transaction is in the cache: `v` is what the cache shows, `Dirty` the sectors with dirty buffers. -/
structure Open (g : Geometry) (disk v D : ℕ → Block) (Dirty : ℕ → Prop) (lh : Logheader) (cur : Tx) : Prop where
  header : word (disk g.start) 0 = 0
  dirty : ∀ x, Dirty x ↔ x ∈ lh.sectors
  outside : ∀ x ∈ lh.sectors, g.Outside x
  view : ∀ x, g.Outside x → v x = cur.apply D x
  logged : ∀ x d, (x, d) ∈ cur → x ∈ lh.sectors
  nodup : lh.sectors.Nodup
  bound : lh.n ≤ LOGSIZE
  size : lh.n < g.size

/-- The first `k` entries are in the log. -/
def Copied (g : Geometry) (disk v : ℕ → Block) (lh : Logheader) (k : ℕ) : Prop :=
  ∀ i < k, i < lh.n → disk (g.start + i + 1) = v (lh.sector i)

/-- The header is on the disk and the first `k` entries are installed. In `commit` the others are still dirty; in
`recover_from_log` no buffer is. -/
structure Pending (g : Geometry) (disk v D : ℕ → Block) (Dirty : ℕ → Prop) (lh : Logheader) (c : Caller) (k : ℕ) :
    Prop where
  n : lh.n = word (disk g.start) 0
  sector : ∀ i < lh.n, lh.sector i = word (disk g.start) (1 + i)
  done : ∀ i < k, i < lh.n → disk (lh.sector i) = D (lh.sector i)
  dirty : ∀ x, Dirty x → ∃ i, k ≤ i ∧ i < lh.n ∧ lh.sector i = x
  commit : c = .commit → lh.sectors.Nodup ∧ (∀ i, k ≤ i → i < lh.n → Dirty (lh.sector i)) ∧
    ∀ x, g.Outside x → v x = D x

/-- What holds at each part of `commit` and `recover_from_log`. -/
def Stage (g : Geometry) (disk v D : ℕ → Block) (Dirty : ℕ → Prop) (lh : Logheader) (cur : Tx) : Pc → Prop
  | .idle => Open g disk v D Dirty lh cur
  | .writeLog tail => Open g disk v D Dirty lh cur ∧ Copied g disk v lh tail
  | .writeHead => Open g disk v D Dirty lh cur ∧ Copied g disk v lh lh.n
  | .readHead => cur = [] ∧ ∀ x, ¬ Dirty x
  | .installTrans c tail => cur = [] ∧ Pending g disk v D Dirty lh c tail
  | .clear c => cur = [] ∧ Pending g disk v D Dirty lh c lh.n
  | .eraseHead _ => cur = [] ∧ lh.n = 0 ∧ (∀ x, g.Outside x → disk x = D x) ∧ ∀ x, ¬ Dirty x

/-- The invariant, for the transactions `R` of a run from the disk `d₀`. -/
def Inv (g : Geometry) (d₀ : ℕ → Block) (R : Record) (s : State) : Prop :=
  ∃ v, Coherent s.io v ∧ Recoverable g s.io.disk (contents d₀ R.committed) ∧
    Stage g s.io.disk v (contents d₀ R.committed) s.io.Dirty s.lh R.current s.pc

variable {g : Geometry} {d₀ disk v D : ℕ → Block} {R : Record} {s s' : State} {m m' : Io} {lh : Logheader} {cur : Tx}
  {x tail : ℕ} {d : Block} {c : Caller}

theorem Geometry.Outside.ne_start (h : g.Outside x) : x ≠ g.start := by
  have := g.pos
  rcases h with h | h <;> omega

theorem Geometry.Outside.ne_log (h : g.Outside x) {i : ℕ} (hi : i + 1 < g.size) : x ≠ g.start + i + 1 := by
  rcases h with h | h <;> omega

theorem Recoverable.write_home (hr : Recoverable g disk D) (hx : g.Outside x) (hd : d = D x) :
    Recoverable g (update disk x d) D := by
  have hstart : update disk x d g.start = disk g.start := update_of_ne hx.ne_start.symm _ _
  refine ⟨hstart ▸ hr.bound, ?_, ?_⟩ <;> rw [hstart]
  · intro i hi
    obtain ⟨hsize, hout, hlog⟩ := hr.entry i hi
    refine ⟨hsize, hout, ?_⟩
    rw [update_of_ne (hx.ne_log hsize).symm]
    exact hlog
  · intro y hy hne
    by_cases hyx : y = x
    · subst hyx
      rw [update_self, hd]
    · rw [update_of_ne hyx]
      exact hr.home y hy hne

theorem Recoverable.write_log (hr : Recoverable g disk D) (h0 : word (disk g.start) 0 = 0) (hsize : tail + 1 < g.size) :
    Recoverable g (update disk (g.start + tail + 1) d) D := by
  have hstart : update disk (g.start + tail + 1) d g.start = disk g.start :=
    update_of_ne (by omega) _ _
  refine ⟨hstart ▸ hr.bound, ?_, ?_⟩ <;> rw [hstart]
  · intro i hi
    omega
  · intro y hy hne
    rw [update_of_ne (hy.ne_log hsize)]
    exact hr.home y hy hne

/-- **The commit point.** Writing the header makes the current transaction recoverable. -/
theorem Recoverable.write_head {Dirty : ℕ → Prop} (hr : Recoverable g disk D) (ho : Open g disk v D Dirty lh cur)
    (hcopied : Copied g disk v lh lh.n) (b : Block) :
    Recoverable g (update disk g.start (putHeader lh b)) (cur.apply D) := by
  refine ⟨?_, ?_, ?_⟩ <;> rw [update_self, word_putHeader_zero]
  · exact ho.bound
  · intro i hi
    have hmem : lh.sector i ∈ lh.sectors := Logheader.mem_sectors.mpr ⟨i, hi, rfl⟩
    have hout := ho.outside _ hmem
    rw [word_putHeader b hi ho.bound]
    refine ⟨by have := ho.size; omega, hout, ?_⟩
    rw [update_of_ne (by omega), hcopied i hi hi, ho.view _ hout]
  · intro y hy hne
    have hnot : y ∉ lh.sectors := by
      intro hmem
      obtain ⟨i, hi, he⟩ := Logheader.mem_sectors.mp hmem
      exact hne i hi (by rw [word_putHeader b hi ho.bound, he])
    rw [update_of_ne hy.ne_start, Tx.apply_of_not_mem fun d hd => hnot (ho.logged y d hd)]
    exact hr.home y hy fun i hi => by rw [ho.header] at hi; omega

theorem Recoverable.erase_head (hhome : ∀ x, g.Outside x → disk x = D x) (h0 : lh.n = 0) (b : Block) :
    Recoverable g (update disk g.start (putHeader lh b)) D := by
  refine ⟨?_, ?_, ?_⟩ <;> rw [update_self, word_putHeader_zero, h0]
  · exact Nat.zero_le _
  · intro i hi
    omega
  · intro y hy _
    rw [update_of_ne hy.ne_start]
    exact hhome y hy

/-! ## The stages, one after the other -/

section Stages

variable {Dirty Dirty' : ℕ → Prop} {b : ℕ}

theorem Open.log (ho : Open g disk v D Dirty lh cur) (hb : g.Outside b) (hn : lh.n < LOGSIZE) (hsize : lh.n + 1 < g.size)
    (hdirty : ∀ y, Dirty' y ↔ y = b ∨ Dirty y) :
    Open g disk (update v b d) D Dirty' (lh.absorb b) (cur ++ [(b, d)]) where
  header := ho.header
  dirty y := by rw [hdirty, ho.dirty, Logheader.mem_absorb]
  outside y hy := by
    rcases Logheader.mem_absorb.mp hy with rfl | hy
    · exact hb
    · exact ho.outside y hy
  view y hy := by
    rw [Tx.apply_snoc]
    by_cases hyb : y = b
    · subst hyb
      simp
    · rw [update_of_ne hyb, update_of_ne hyb, ho.view y hy]
  logged y e hy := by
    rcases List.mem_append.mp hy with hy | hy
    · exact Logheader.mem_absorb.mpr (.inr (ho.logged y e hy))
    · obtain ⟨rfl, -⟩ : y = b ∧ e = d := by simpa using hy
      exact Logheader.mem_absorb.mpr (.inl rfl)
  nodup := Logheader.nodup_absorb ho.nodup
  bound := (lh.absorb_n_le b).trans hn
  size := (lh.absorb_n_le b).trans_lt hsize

theorem Open.copy (ho : Open g disk v D Dirty lh cur) (htail : tail < lh.n)
    (hdirty : ∀ y, Dirty' y ↔ y ≠ g.start + tail + 1 ∧ Dirty y) :
    Open g (update disk (g.start + tail + 1) d) (update v (g.start + tail + 1) d) D Dirty' lh cur := by
  have hsize : tail + 1 < g.size := by have := ho.size; omega
  have hne {y : ℕ} (hy : g.Outside y) : y ≠ g.start + tail + 1 := hy.ne_log hsize
  refine { ho with header := ?_, dirty := fun y => ?_, view := fun y hy => ?_ }
  · rw [update_of_ne (by omega)]
    exact ho.header
  · rw [hdirty, ho.dirty]
    exact and_iff_right_of_imp fun hy => hne (ho.outside y hy)
  · rw [update_of_ne (hne hy)]
    exact ho.view y hy

theorem Copied.copy (hcopied : Copied g disk v lh tail) (ho : Open g disk v D Dirty lh cur) (htail : tail < lh.n) :
    Copied g (update disk (g.start + tail + 1) (v (lh.sector tail)))
      (update v (g.start + tail + 1) (v (lh.sector tail))) lh (tail + 1) := by
  intro i hi hn
  have hsize : tail + 1 < g.size := by have := ho.size; omega
  have hout : g.Outside (lh.sector i) := ho.outside _ (Logheader.mem_sectors.mpr ⟨i, hn, rfl⟩)
  rw [update_of_ne (hout.ne_log hsize)]
  rcases Nat.lt_succ_iff_lt_or_eq.mp hi with hi | rfl
  · rw [update_of_ne (by omega)]
    exact hcopied i hi hn
  · rw [update_self]

theorem Open.commit (ho : Open g disk v D Dirty lh cur) (e : Block) (hdirty : ∀ y, Dirty' y ↔ y ≠ g.start ∧ Dirty y) :
    Pending g (update disk g.start (putHeader lh e)) (update v g.start (putHeader lh e))
      (cur.apply D) Dirty' lh .commit 0 where
  n := by rw [update_self, word_putHeader_zero]
  sector i hi := by rw [update_self, word_putHeader e hi ho.bound]
  done i hi := absurd hi (Nat.not_lt_zero i)
  dirty y hy := by
    obtain ⟨i, hi, he⟩ := Logheader.mem_sectors.mp ((ho.dirty y).mp ((hdirty y).mp hy).2)
    exact ⟨i, Nat.zero_le i, hi, he⟩
  commit _ := by
    refine ⟨ho.nodup, fun i _ hi => ?_, fun y hy => ?_⟩
    · have hmem : lh.sector i ∈ lh.sectors := Logheader.mem_sectors.mpr ⟨i, hi, rfl⟩
      exact (hdirty _).mpr ⟨(ho.outside _ hmem).ne_start, (ho.dirty _).mpr hmem⟩
    · rw [update_of_ne hy.ne_start]
      exact ho.view y hy

theorem Pending.recover (hdirty : ∀ y, ¬ Dirty y) : Pending g disk v D Dirty (getHeader lh (disk g.start)) .recover 0 where
  n := rfl
  sector i hi := sector_getHeader hi
  done i hi := absurd hi (Nat.not_lt_zero i)
  dirty y hy := absurd hy (hdirty y)
  commit h := by cases h

theorem Pending.entry (hp : Pending g disk v D Dirty lh c tail) (hr : Recoverable g disk D) {i : ℕ} (hi : i < lh.n) :
    i + 1 < g.size ∧ g.Outside (lh.sector i) ∧ disk (g.start + i + 1) = D (lh.sector i) := by
  rw [hp.sector i hi]
  exact hr.entry i (hp.n ▸ hi)

theorem Pending.install (hp : Pending g disk v D Dirty lh c tail) (hr : Recoverable g disk D) (htail : tail < lh.n)
    (hdirty : ∀ y, Dirty' y ↔ y ≠ lh.sector tail ∧ Dirty y) :
    Pending g (update disk (lh.sector tail) (D (lh.sector tail)))
      (update v (lh.sector tail) (D (lh.sector tail))) D Dirty' lh c (tail + 1) := by
  have hstart (e : Block) : update disk (lh.sector tail) e g.start = disk g.start :=
    update_of_ne (hp.entry hr htail).2.1.ne_start.symm _ _
  refine ⟨by rw [hstart, hp.n], fun i hi => by rw [hstart, hp.sector i hi], fun i hi hn => ?_, fun y hy => ?_,
    fun hc => ?_⟩
  · by_cases he : lh.sector i = lh.sector tail
    · rw [he, update_self]
    · have hne : i ≠ tail := fun h => he (by rw [h])
      rw [update_of_ne he]
      exact hp.done i (by omega) hn
  · obtain ⟨hne, hy⟩ := (hdirty y).mp hy
    obtain ⟨i, hi, hn, rfl⟩ := hp.dirty y hy
    have : i ≠ tail := fun h => hne (by rw [h])
    exact ⟨i, by omega, hn, rfl⟩
  · obtain ⟨hnodup, hrest, hview⟩ := hp.commit hc
    refine ⟨hnodup, fun i hi hn => (hdirty _).mpr ⟨fun he => ?_, hrest i (by omega) hn⟩, fun y hy => ?_⟩
    · have := Logheader.sector_inj hnodup hn htail he
      omega
    · by_cases hyt : y = lh.sector tail
      · rw [hyt, update_self]
      · rw [update_of_ne hyt]
        exact hview y hy

theorem Pending.finish (hp : Pending g disk v D Dirty lh c tail) (htail : lh.n ≤ tail) :
    Pending g disk v D Dirty lh c lh.n where
  n := hp.n
  sector := hp.sector
  done i hi := hp.done i (by omega)
  dirty y hy := by
    obtain ⟨i, hi, hn, -⟩ := hp.dirty y hy
    omega
  commit hc := ⟨(hp.commit hc).1, fun i hi hn => by omega, (hp.commit hc).2.2⟩

theorem Pending.home (hp : Pending g disk v D Dirty lh c lh.n) (hr : Recoverable g disk D) (hx : g.Outside x) :
    disk x = D x := by
  by_cases h : ∃ i < lh.n, lh.sector i = x
  · obtain ⟨i, hi, rfl⟩ := h
    exact hp.done i hi hi
  · refine hr.home x hx fun i hi he => h ⟨i, hp.n ▸ hi, ?_⟩
    rw [hp.sector i (hp.n ▸ hi), he]

theorem Pending.clean (hp : Pending g disk v D Dirty lh c lh.n) (y : ℕ) : ¬ Dirty y := by
  intro hy
  obtain ⟨i, hi, hn, -⟩ := hp.dirty y hy
  omega

theorem Open.erased (e : Block) (h0 : lh.n = 0) (hview : ∀ x, g.Outside x → v x = D x) (hdirty : ∀ y, ¬ Dirty' y) :
    Open g (update disk g.start (putHeader lh e)) (update v g.start (putHeader lh e)) D Dirty' lh [] := by
  have hnil : lh.sectors = [] := List.length_eq_zero_iff.mp (by rw [lh.length_sectors, h0])
  refine ⟨by rw [update_self, word_putHeader_zero, h0], fun y => ?_, ?_, fun y hy => ?_, by simp, ?_, ?_, ?_⟩
  · simp [hnil, hdirty y]
  · simp [hnil]
  · rw [update_of_ne hy.ne_start, hview y hy, Tx.apply_nil]
  · simp [hnil]
  · omega
  · rw [h0]
    exact g.pos

end Stages

/-! ## The steps -/

theorem Inv.kept (hi : Inv g d₀ R s) (hk : ∀ v, Coherent s.io v → Kept s.io v m') : Inv g d₀ R { s with io := m' } := by
  obtain ⟨v, hc, hr, hs⟩ := hi
  obtain ⟨hc', hdisk, hdirty⟩ := hk v hc
  have hD : m'.Dirty = s.io.Dirty := funext fun y => propext (hdirty y)
  refine ⟨v, hc', ?_, ?_⟩
  · rw [hdisk]
    exact hr
  · simp only [hdisk, hD]
    exact hs

theorem Inv.logWrite {i : BufIx} (hi : Inv g d₀ R s) (hok : LogsOutside g s (.logWrite i d))
    (h : step g s (.logWrite i d) = some s') : Inv g d₀ (R.next s (.logWrite i d)) s' := by
  obtain ⟨v, hc, hr, hs⟩ := hi
  simp only [step] at h
  split_ifs at h with hidle hbig
  obtain ⟨hpc, hbusy, hvalid⟩ := hidle
  obtain rfl := by simpa using h
  simp only [hpc] at hs
  have hhold : Holds s.io i (s.io.buf i).sector (s.io.buf i).data := ⟨hbusy, hvalid, hc.dev i hvalid, rfl, rfl⟩
  obtain ⟨hc', hdisk, hdirty⟩ := modify_spec hc hhold d
  refine ⟨_, hc', ?_, ?_⟩
  · rw [hdisk]
    exact hr
  · simp only [hpc, hdisk, Record.next, Stage]
    exact Open.log hs hok (by omega) (by omega) hdirty

theorem Inv.go (hi : Inv g d₀ R s) (h : s.go g = some s') : Inv g d₀ (R.next s .go) s' := by
  obtain ⟨v, hc, hr, hs⟩ := hi
  obtain ⟨io, lh, pc⟩ := s
  cases pc with
  | idle => simp [State.go] at h
  | writeLog tail =>
    simp only [State.go] at h
    obtain ⟨ho, hcopied⟩ := hs
    split_ifs at h with htail
    · obtain ⟨m', hm, rfl⟩ := Option.map_eq_some_iff.mp h
      have hw := writeLog_spec hc hm
      refine ⟨_, hw.coherent, ?_, ?_⟩
      · rw [hw.disk]
        exact hr.write_log ho.header (by have := ho.size; simp only at *; omega)
      · simp only [hw.disk]
        exact ⟨ho.copy htail hw.dirty, hcopied.copy ho htail⟩
    · obtain rfl := by simpa using h
      exact ⟨v, hc, hr, ho, fun i hi => hcopied i (by simp only at *; omega)⟩
  | writeHead =>
    obtain ⟨ho, hcopied⟩ := hs
    obtain ⟨m', hm, rfl⟩ := Option.map_eq_some_iff.mp h
    have hw := writeHead_spec hc hm
    refine ⟨_, hw.coherent, ?_, ?_⟩
    · simp only [Record.next, if_true, contents_snoc, hw.disk]
      exact hr.write_head ho hcopied _
    · simp only [Record.next, if_true, contents_snoc, hw.disk]
      exact ⟨rfl, ho.commit _ hw.dirty⟩
  | readHead =>
    obtain ⟨hcur, hclean⟩ := hs
    obtain ⟨⟨m', lh'⟩, hm, rfl⟩ := Option.map_eq_some_iff.mp h
    obtain ⟨hk, rfl⟩ := readHead_spec hc hm
    have hD : m'.Dirty = io.Dirty := funext fun y => propext (hk.dirty y)
    refine ⟨v, hk.coherent, ?_, ?_⟩
    · simp only [hk.disk]
      exact hr
    · simp only [hk.disk, hD, ← hc.disk _ (hclean g.start)]
      exact ⟨hcur, .recover hclean⟩
  | installTrans c tail =>
    simp only [State.go] at h
    obtain ⟨hcur, hp⟩ := hs
    split_ifs at h with htail
    · obtain ⟨m', hm, rfl⟩ := Option.map_eq_some_iff.mp h
      obtain ⟨hsize, hout, hlog⟩ := hp.entry hr htail
      -- the log block is on the disk: only home sectors are dirty
      have hnd : ¬ io.Dirty (g.start + tail + 1) := by
        intro hd
        obtain ⟨i, -, hn, he⟩ := hp.dirty _ hd
        exact (hp.entry hr hn).2.1.ne_log hsize he
      have hw := installTrans_spec hc hm
      rw [← hc.disk _ hnd, hlog] at hw
      refine ⟨_, hw.coherent, ?_, ?_⟩
      · simp only [hw.disk]
        exact hr.write_home hout rfl
      · simp only [hw.disk]
        exact ⟨hcur, hp.install hr htail hw.dirty⟩
    · obtain rfl := by simpa using h
      exact ⟨v, hc, hr, hcur, hp.finish (by simpa using htail)⟩
  | clear c =>
    obtain ⟨hcur, hp⟩ := hs
    obtain rfl := by simpa [State.go] using h
    exact ⟨v, hc, hr, hcur, rfl, fun x hx => hp.home hr hx, hp.clean⟩
  | eraseHead c =>
    obtain ⟨hcur, h0, hhome, hclean⟩ := hs
    obtain ⟨m', hm, rfl⟩ := Option.map_eq_some_iff.mp h
    have hw := writeHead_spec hc hm
    refine ⟨_, hw.coherent, ?_, ?_⟩
    · simp only [hw.disk]
      exact .erase_head hhome h0 _
    · simp only [hw.disk, Record.next, reduceCtorEq, if_false, hcur]
      exact Open.erased _ h0 (fun x hx => (hc.disk x (hclean x)).symm.trans (hhome x hx))
        fun y hy => hclean y ((hw.dirty y).mp hy).2

theorem Inv.boot (disk : ℕ → Block) (hcur : R.current = []) (hr : Recoverable g disk (contents d₀ R.committed)) :
    Inv g d₀ R (boot disk) :=
  ⟨disk, coherent_binit disk, hr, hcur, not_dirty_binit disk⟩

theorem Inv.step {l : Label} (hi : Inv g d₀ R s) (hok : LogsOutside g s l) (h : step g s l = some s') :
    Inv g d₀ (R.next s l) s' := by
  cases l with
  | bread dev x =>
    obtain ⟨⟨m', i⟩, hm, rfl⟩ := Option.map_eq_some_iff.mp h
    exact hi.kept fun v hc => .of_bread hc hm
  | logWrite i d => exact hi.logWrite hok h
  | brelse i =>
    obtain ⟨m', hm, rfl⟩ := Option.map_eq_some_iff.mp h
    exact hi.kept fun v hc => .of_brelse hc hm
  | commit =>
    obtain ⟨hpc, rfl⟩ := by simpa [Journal.step] using h
    obtain ⟨v, hc, hr, hs⟩ := hi
    rw [hpc] at hs
    refine ⟨v, hc, hr, ?_⟩
    split_ifs
    · exact ⟨hs, fun i hi => absurd hi (Nat.not_lt_zero i)⟩
    · exact hs
  | go => exact hi.go h
  | crash =>
    obtain rfl := by simpa [Journal.step] using h
    obtain ⟨v, hc, hr, hs⟩ := hi
    exact .boot _ rfl hr

theorem inv_of_path {tr : List (State × Label)} (h0 : word (d₀ g.start) 0 = 0)
    (h : Lib.Path (step g) (LogsOutside g) (boot d₀) tr s) : Inv g d₀ (record tr) s := by
  refine h.inv_trace (I := fun tr s => Inv g d₀ (record tr) s) (.boot d₀ rfl ⟨by omega, fun i hi => ?_, fun x _ _ => rfl⟩)
    fun tr s l s' hi hok hs => ?_
  · omega
  · rw [record_snoc]
    exact hi.step hok hs

/-- **Crash atomicity of the log.** From a disk whose header has `n = 0`, run any sequence of transactions that log
sectors outside the log area, with a crash between any two sector writes, during recovery too, any number of times.
Whenever recovery is over, or a commit, every sector outside the log area holds what it holds after the transactions
whose header has been written to the disk, in their order, and nothing of the others. -/
theorem crash_atomic {tr : List (State × Label)} (h0 : word (d₀ g.start) 0 = 0)
    (h : Lib.Path (step g) (LogsOutside g) (boot d₀) tr s) (hidle : s.pc = .idle) :
    ∀ x, g.Outside x → s.io.disk x = contents d₀ (record tr).committed x := by
  intro x hx
  obtain ⟨v, -, hr, hs⟩ := inv_of_path h0 h
  rw [hidle] at hs
  exact hr.home x hx fun i hi => by rw [hs.header] at hi; omega

def fill (w : ℕ) : Block := fun _ => w

/-- The sector 5 is logged, and the machine crashes when the header is written and nothing is installed. -/
def crashAfterHead : List Label :=
  [.go, .go, .go, .go, .bread ROOTDEV 5, .logWrite 1 (fill 7), .brelse 1, .commit, .go, .go, .go, .crash,
    .go, .go, .go, .go, .go]

theorem crash_atomic_after_head :
    ∃ tr s, Lib.Path (step mkfs) (LogsOutside mkfs) (boot fun _ => fill 0) tr s ∧ s.pc = .idle ∧
      word (s.io.disk 5) 0 = 7 ∧ s.io.disk 5 = contents (fun _ => fill 0) (record tr).committed 5 := by
  obtain ⟨s, hp, hpc, hw⟩ := Lib.exists_path (step mkfs) (LogsOutside mkfs) (boot fun _ => fill 0) crashAfterHead
    (fun s => s.pc = .idle ∧ word (s.io.disk 5) 0 = 7) (by decide +kernel)
  exact ⟨_, s, hp, hpc, hw, crash_atomic rfl hp hpc 5 (.inl (by decide))⟩

/-- **Write-ahead.** At every moment of a run, in the middle of a commit or of recovery too, the content of a sector
after the committed transactions is on the disk: in its place, or in the block of the log that the header on the disk
names for it. -/
theorem committed_on_disk {tr : List (State × Label)} (h0 : word (d₀ g.start) 0 = 0)
    (h : Lib.Path (step g) (LogsOutside g) (boot d₀) tr s) {x : ℕ} (hx : g.Outside x) :
    s.io.disk x = contents d₀ (record tr).committed x ∨
      ∃ i, i < word (s.io.disk g.start) 0 ∧ i + 1 < g.size ∧ word (s.io.disk g.start) (1 + i) = x ∧
        s.io.disk (g.start + i + 1) = contents d₀ (record tr).committed x := by
  obtain ⟨v, -, hr, -⟩ := inv_of_path h0 h
  by_cases hin : ∃ i < word (s.io.disk g.start) 0, word (s.io.disk g.start) (1 + i) = x
  · obtain ⟨i, hi, rfl⟩ := hin
    obtain ⟨hsize, -, hlog⟩ := hr.entry i hi
    exact .inr ⟨i, hi, hsize, rfl, hlog⟩
  · exact .inl (hr.home x hx fun i hi he => hin ⟨i, hi, he⟩)

/-- The machine crashes when the header is written and nothing is installed. -/
theorem committed_on_disk_after_head : ∃ tr s, Lib.Path (step mkfs) (LogsOutside mkfs) (boot fun _ => fill 0) tr s ∧
    word (s.io.disk 5) 0 = 0 ∧ word (s.io.disk mkfs.start) 0 = 1 ∧
      (s.io.disk 5 = contents (fun _ => fill 0) (record tr).committed 5 ∨
        ∃ i, i < word (s.io.disk mkfs.start) 0 ∧ i + 1 < mkfs.size ∧ word (s.io.disk mkfs.start) (1 + i) = 5 ∧
          s.io.disk (mkfs.start + i + 1) = contents (fun _ => fill 0) (record tr).committed 5) := by
  obtain ⟨s, hp, hw, hn⟩ := Lib.exists_path (step mkfs) (LogsOutside mkfs) (boot fun _ => fill 0)
    (crashAfterHead.take 12) (fun s => word (s.io.disk 5) 0 = 0 ∧ word (s.io.disk mkfs.start) 0 = 1) (by decide +kernel)
  exact ⟨_, s, hp, hw, hn, committed_on_disk rfl hp (.inl (by decide))⟩

end Xv6.Journal
