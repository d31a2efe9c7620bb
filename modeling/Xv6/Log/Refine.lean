import Xv6.Log.Crash

/-!
# Cache, log and disk as one map

Without crashes, the buffer cache, the log and the disk together behave like a map from sectors to contents: `bread`
returns what was last logged for the sector (`stored`), whatever has been evicted, committed or installed meanwhile, and
a change that is not installed yet is in a dirty buffer, which `bget` never recycles.
-/

namespace Xv6.Journal

open Bio Log

variable {g : Geometry} {d₀ : ℕ → Block} {s s' : State}

/-- The map after a step: `log_write` stores the new contents of its sector. -/
def storeNext (f : ℕ → Block) (s : State) : Label → ℕ → Block
  | .logWrite i d => Function.update f (s.io.buf i).sector d
  | .bread _ _ | .brelse _ | .commit | .go | .crash => f

/-- What was last logged for each sector in a run from the disk `d₀`. -/
def stored (d₀ : ℕ → Block) (tr : List (State × Label)) : ℕ → Block := tr.foldl (fun f x => storeNext f x.1 x.2) d₀

theorem stored_snoc (d₀ : ℕ → Block) (tr : List (State × Label)) (s : State) (l : Label) :
    stored d₀ (tr ++ [(s, l)]) = storeNext (stored d₀ tr) s l := by
  simp [stored]

/-- The machine does not crash. -/
def NoCrash (_ : State) : Label → Prop
  | .crash => False
  | .bread _ _ | .logWrite _ _ | .brelse _ | .commit | .go => True

instance (s : State) (l : Label) : Decidable (NoCrash s l) :=
  match l with
  | .crash => .isFalse id
  | .bread _ _ | .logWrite _ _ | .brelse _ | .commit | .go => .isTrue trivial

theorem apply_current {l : Label} (hok : NoCrash s l) {tr : List (State × Label)}
    (h : (record tr).current.apply (contents d₀ (record tr).committed) = stored d₀ tr) :
    (record (tr ++ [(s, l)])).current.apply (contents d₀ (record (tr ++ [(s, l)])).committed) =
      stored d₀ (tr ++ [(s, l)]) := by
  rw [record_snoc, stored_snoc]
  cases l with
  | logWrite i d => simp only [Record.next, storeNext, Tx.apply_snoc, h]
  | go =>
    simp only [Record.next]
    split_ifs
    · rw [contents_snoc, Tx.apply_nil]
      exact h
    · exact h
  | crash => exact hok.elim
  | bread | brelse | commit => exact h

def Pc.recovering : Pc → Bool
  | .readHead => true
  | .installTrans c _ | .clear c | .eraseHead c => c == .recover
  | .idle | .writeLog _ | .writeHead => false

/-- Recovery has nothing to do. -/
def Fresh (g : Geometry) (s : State) : Prop := s.pc.recovering = true → word (s.io.disk g.start) 0 = 0

theorem Fresh.step {R : Record} {l : Label} (hf : Fresh g s) (hi : Inv g d₀ R s) (hok : NoCrash s l)
    (h : step g s l = some s') : Fresh g s' := by
  obtain ⟨v, hc, hr, hs⟩ := hi
  intro hrec
  cases l with
  | bread dev x =>
    obtain ⟨⟨m', i⟩, hm, rfl⟩ := Option.map_eq_some_iff.mp h
    rw [(Kept.of_bread hc hm).disk]
    exact hf hrec
  | brelse i =>
    obtain ⟨m', hm, rfl⟩ := Option.map_eq_some_iff.mp h
    rw [(Kept.of_brelse hc hm).disk]
    exact hf hrec
  | logWrite i d =>
    simp only [Journal.step] at h
    split_ifs at h with hidle
    obtain rfl := by simpa using h
    simp [hidle.1, Pc.recovering] at hrec
  | commit =>
    obtain ⟨hpc, rfl⟩ := by simpa [Journal.step] using h
    split_ifs at hrec <;> simp [Pc.recovering] at hrec
  | crash => exact hok.elim
  | go =>
    simp only [Journal.step] at h
    obtain ⟨io, lh, pc⟩ := s
    cases pc with
    | idle => simp [State.go] at h
    | writeLog tail =>
      simp only [State.go] at h
      split_ifs at h
      · obtain ⟨m', -, rfl⟩ := Option.map_eq_some_iff.mp h
        simp [Pc.recovering] at hrec
      · obtain rfl := by simpa using h
        simp [Pc.recovering] at hrec
    | writeHead | eraseHead =>
      obtain ⟨m', -, rfl⟩ := Option.map_eq_some_iff.mp h
      simp [Pc.recovering] at hrec
    | readHead =>
      obtain ⟨⟨m', lh'⟩, hm, rfl⟩ := Option.map_eq_some_iff.mp h
      rw [(readHead_spec hc hm).1.disk]
      exact hf rfl
    | installTrans c tail =>
      simp only [State.go] at h
      split_ifs at h with htail
      · obtain ⟨m', -, rfl⟩ := Option.map_eq_some_iff.mp h
        have h0 : lh.n = 0 := hs.2.n.trans (hf hrec)
        omega
      · obtain rfl := by simpa using h
        exact hf hrec
    | clear c =>
      obtain rfl := by simpa [State.go] using h
      exact hf hrec

/-- **The abstraction.** Without crashes the cache shows what was last logged. -/
theorem Inv.view {R : Record} (hi : Inv g d₀ R s) (hf : Fresh g s) :
    ∃ v, Coherent s.io v ∧ ∀ x, g.Outside x → v x = R.current.apply (contents d₀ R.committed) x := by
  obtain ⟨v, hc, hr, hs⟩ := hi
  refine ⟨v, hc, fun x hx => ?_⟩
  -- where no buffer is dirty the disk shows the map
  have hclean (h : ¬ s.io.Dirty x) (hd : s.io.disk x = contents d₀ R.committed x) (hcur : R.current = []) :
      v x = R.current.apply (contents d₀ R.committed) x := by
    rw [hcur, Tx.apply_nil, ← hd, hc.disk x h]
  have hempty (h0 : word (s.io.disk g.start) 0 = 0) : s.io.disk x = contents d₀ R.committed x :=
    hr.home x hx fun i hi => by omega
  have hpending {c : Caller} {k : ℕ} (hrec : c = .recover → s.pc.recovering = true) (hcur : R.current = [])
      (hp : Pending g s.io.disk v (contents d₀ R.committed) s.io.Dirty s.lh c k) :
      v x = R.current.apply (contents d₀ R.committed) x := by
    cases c with
    | commit => rw [hcur, (hp.commit rfl).2.2 x hx, Tx.apply_nil]
    | recover =>
      have h0 := hf (hrec rfl)
      refine hclean (fun hd => ?_) (hempty h0) hcur
      obtain ⟨i, -, hn, -⟩ := hp.dirty x hd
      have := hp.n
      omega
  cases hpc : s.pc with
  | idle => rw [hpc] at hs; exact hs.view x hx
  | writeLog tail => rw [hpc] at hs; exact hs.1.view x hx
  | writeHead => rw [hpc] at hs; exact hs.1.view x hx
  | readHead => rw [hpc] at hs; exact hclean (hs.2 x) (hempty (hf (by rw [hpc]; rfl))) hs.1
  | installTrans c tail =>
    rw [hpc] at hs
    exact hpending (by rintro rfl; rw [hpc]; rfl) hs.1 hs.2
  | clear c =>
    rw [hpc] at hs
    exact hpending (by rintro rfl; rw [hpc]; rfl) hs.1 hs.2
  | eraseHead c => rw [hpc] at hs; exact hclean (hs.2.2.2 x) (hs.2.2.1 x hx) hs.1

/-- The sector has been logged, and its change is not installed yet. -/
def State.Uncommitted (s : State) (x : ℕ) : Prop :=
  match s.pc with
  | .idle | .writeLog _ | .writeHead => x ∈ s.lh.sectors
  | .installTrans .commit tail => ∃ i, tail ≤ i ∧ i < s.lh.n ∧ s.lh.sector i = x
  | .installTrans .recover _ | .readHead | .clear _ | .eraseHead _ => False

theorem Inv.dirty {R : Record} (hi : Inv g d₀ R s) {x : ℕ} (hx : s.Uncommitted x) : s.io.Dirty x ∧ g.Outside x := by
  obtain ⟨v, hc, hr, hs⟩ := hi
  unfold State.Uncommitted at hx
  cases hpc : s.pc with
  | idle => rw [hpc] at hs hx; exact ⟨(hs.dirty x).mpr hx, hs.outside x hx⟩
  | writeLog tail => rw [hpc] at hs hx; exact ⟨(hs.1.dirty x).mpr hx, hs.1.outside x hx⟩
  | writeHead => rw [hpc] at hs hx; exact ⟨(hs.1.dirty x).mpr hx, hs.1.outside x hx⟩
  | installTrans c tail =>
    rw [hpc] at hs hx
    cases c with
    | commit =>
      obtain ⟨i, hi, hn, rfl⟩ := hx
      exact ⟨(hs.2.commit rfl).2.1 i hi hn, (hs.2.entry hr hn).2.1⟩
    | recover => exact hx.elim
  | readHead | clear | eraseHead => rw [hpc] at hx; exact hx.elim

/-- **Cache, log and disk refine a map.** In every run without crashes that logs sectors outside the log area, with any
evictions: `bread` of a sector outside the log area returns what was last logged for it, or the initial contents;
`bget` leaves every dirty buffer as it is, but for `B_BUSY` if it returns it; and a change that is not installed yet is
in a dirty buffer. -/
theorem bread_returns_stored {tr : List (State × Label)} (h0 : word (d₀ g.start) 0 = 0)
    (h : Lib.Path (step g) (fun s l => LogsOutside g s l ∧ NoCrash s l) (boot d₀) tr s) :
    (∀ dev x m' i, g.Outside x → bread g.disksize s.io dev x = some (m', i) →
        (m'.buf i).sector = x ∧ (m'.buf i).data = stored d₀ tr x) ∧
      (∀ j, (s.io.buf j).dirty = true → ∀ dev x m' i, bget s.io dev x = some (m', i) →
        m'.buf j = if j = i then { s.io.buf j with busy := true } else s.io.buf j) ∧
      ∀ x, s.Uncommitted x → ∃ j, (s.io.buf j).dirty = true ∧ (s.io.buf j).sector = x ∧
        (s.io.buf j).data = stored d₀ tr x := by
  have hinv : (Inv g d₀ (record tr) s ∧ Fresh g s) ∧
      (record tr).current.apply (contents d₀ (record tr).committed) = stored d₀ tr := by
    refine h.inv_trace (I := fun tr s => (Inv g d₀ (record tr) s ∧ Fresh g s) ∧
      (record tr).current.apply (contents d₀ (record tr).committed) = stored d₀ tr)
      ⟨⟨inv_of_path h0 .nil, fun _ => h0⟩, rfl⟩ ?_
    rintro tr s l s' ⟨⟨hi, hf⟩, heq⟩ ⟨hout, hok⟩ hs
    exact ⟨⟨record_snoc tr s l ▸ hi.step hout hs, hf.step hi hok hs⟩, apply_current hok heq⟩
  obtain ⟨⟨hi, hf⟩, heq⟩ := hinv
  obtain ⟨v, hc, hview⟩ := hi.view hf
  rw [heq] at hview
  refine ⟨fun dev x m' i hx hm => ?_, fun j hj dev x m' i hm => ?_, fun x hx => ?_⟩
  · obtain ⟨-, -, hold⟩ := bread_spec hc hm
    exact ⟨hold.sector, by rw [hold.data, hview x hx]⟩
  · obtain ⟨-, hfetch, -⟩ := bget_spec hc hm
    split_ifs with hji
    · subst hji
      exact hfetch.dirty hj
    · exact hfetch.other j hji
  · obtain ⟨⟨j, hd, hsec⟩, hout⟩ := hi.dirty hx
    exact ⟨j, hd, hsec, by rw [hc.data j (hc.dirty j hd), hsec, hview x hout]⟩

/-- The sector 5 is logged and committed, while another buffer is held. -/
def commitOne : List Label :=
  [.go, .go, .go, .go, .bread ROOTDEV 6, .bread ROOTDEV 5, .logWrite 2 (fill 7), .brelse 2, .commit,
    .go, .go, .go, .go, .go, .go, .go]

/-- The sector is read back, from whichever buffer. -/
theorem bread_returns_stored_committed :
    ∃ tr s m' i, Lib.Path (step mkfs) (fun s l => LogsOutside mkfs s l ∧ NoCrash s l) (boot fun _ => fill 0) tr s ∧
      s.pc = .idle ∧ bread mkfs.disksize s.io ROOTDEV 5 = some (m', i) ∧ word (s.io.disk 5) 0 = 7 ∧
      (m'.buf i).data = stored (fun _ => fill 0) tr 5 := by
  obtain ⟨s, hp, hpc, hw, hb⟩ := Lib.exists_path (step mkfs) (fun s l => LogsOutside mkfs s l ∧ NoCrash s l)
    (boot fun _ => fill 0) commitOne
    (fun s => s.pc = .idle ∧ word (s.io.disk 5) 0 = 7 ∧ (bread mkfs.disksize s.io ROOTDEV 5).isSome)
    (by decide +kernel)
  obtain ⟨⟨m', i⟩, hm⟩ := Option.isSome_iff_exists.mp hb
  exact ⟨_, s, m', i, hp, hpc, hm, hw, ((bread_returns_stored rfl hp).1 ROOTDEV 5 m' i (.inl (by decide)) hm).2⟩

/-- **The log area is no part of the map.** Nothing is ever logged for the sector 995, the first log block; after the
commit `bread` does not return its initial contents. -/
theorem log_area_is_written :
    ∃ tr s m' i, Lib.Path (step mkfs) (fun s l => LogsOutside mkfs s l ∧ NoCrash s l) (boot fun _ => fill 0) tr s ∧
      bread mkfs.disksize s.io ROOTDEV 995 = some (m', i) ∧ word (m'.buf i).data 0 = 7 ∧
      word (stored (fun _ => fill 0) tr 995) 0 = 0 := by
  obtain ⟨s, hp, hb⟩ := Lib.exists_path (step mkfs) (fun s l => LogsOutside mkfs s l ∧ NoCrash s l)
    (boot fun _ => fill 0) commitOne
    (fun s => ((bread mkfs.disksize s.io ROOTDEV 995).any fun r => word (r.1.buf r.2).data 0 == 7) = true)
    (by decide +kernel)
  cases hm : bread mkfs.disksize s.io ROOTDEV 995 with
  | none => simp [hm] at hb
  | some r => exact ⟨_, s, r.1, r.2, hp, hm, by simpa [hm] using hb, by decide +kernel⟩

end Xv6.Journal
