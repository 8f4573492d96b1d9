import KVStores.Redis.IntsetSpec

/-!
# Sets of integers behave as sets

Calls are made one after another, on a set that was empty.
-/

namespace KVStores.Redis

open List Option

variable {is : Intset}

inductive IntsetOp where
  | add (v : Long)
  | remove (v : Long)
  | find (v : Long)

def IntsetOp.exec (fill : ℕ → UInt8) : IntsetOp → Intset → Option (Intset × Bool)
  | add v, is => intsetAdd fill is v.1
  | remove v, is => intsetRemove fill is v.1
  | find v, is => (intsetFind is v.1).map fun b => (is, b)

def IntsetOp.plain : IntsetOp → Finset ℤ → Finset ℤ × Bool
  | add v, s => (insert v.1 s, decide (v.1 ∉ s))
  | remove v, s => (s.erase v.1, decide (v.1 ∈ s))
  | find v, s => (s, decide (v.1 ∈ s))

/-- A run: the set, and all flags. What new memory holds differs from call to call. -/
@[grind =] def intsetRun (fill : ℕ → ℕ → UInt8) : List IntsetOp → Intset → Option (Intset × List Bool)
  | [], is => some (is, [])
  | op :: ops, is => (op.exec (fill ops.length) is).bind fun r => (intsetRun fill ops r.1).map fun r' => (r'.1, r.2 :: r'.2)

@[grind =] def finsetRun : List IntsetOp → Finset ℤ → Finset ℤ × List Bool
  | [], s => (s, [])
  | op :: ops, s => ((finsetRun ops (op.plain s).1).1, (op.plain s).2 :: (finsetRun ops (op.plain s).1).2)

def IntsetOp.Roomy : IntsetOp → Intset → Prop
  | add v, is => is.HasRoom v.1
  | remove _, _ => True
  | find _, _ => True

@[grind =] def RoomyRun (fill : ℕ → ℕ → UInt8) : List IntsetOp → Intset → Prop
  | [], _ => True
  | op :: ops, is => op.Roomy is ∧ ∀ r, op.exec (fill ops.length) is = some r → RoomyRun fill ops r.1

def Intset.Represents (is : Intset) (s : Finset ℤ) : Prop := ∃ l, is.Holds l ∧ l.toFinset = s

theorem intsetNew_holds : intsetNew.Holds [] := ⟨Or.inl rfl, rfl, rfl, List.Pairwise.nil, fun v hv => absurd hv not_mem_nil, by decide⟩

theorem intsetNew_represents : intsetNew.Represents ∅ := ⟨[], intsetNew_holds, rfl⟩

variable {s : Finset ℤ}

theorem Intset.Represents.card (h : is.Represents s) : is.length = s.card := by
  obtain ⟨l, h, rfl⟩ := h
  rw [h.length, toFinset_card_of_nodup (h.sorted.imp fun hlt => hlt.ne)]

/-- **One call** with room. -/
theorem IntsetOp.exec_spec (op : IntsetOp) (h : is.Represents s) (hroom : op.Roomy is) (fill : ℕ → UInt8) :
    ∃ is', op.exec fill is = some (is', (op.plain s).2) ∧ is'.Represents (op.plain s).1 := by
  obtain ⟨l, h, rfl⟩ := h
  cases op with
  | add v =>
    obtain ⟨is', l', hadd, h', hmem⟩ := intsetAdd_spec h v hroom fill
    refine ⟨is', ?_, l', h', ?_⟩
    · simp only [exec, plain, hadd, List.mem_toFinset]
    · ext x
      rw [plain, List.mem_toFinset, Finset.mem_insert, List.mem_toFinset, hmem]
  | remove v =>
    obtain ⟨is', l', hremove, h', hmem⟩ := intsetRemove_spec h v fill
    refine ⟨is', ?_, l', h', ?_⟩
    · simp only [exec, plain, hremove, List.mem_toFinset]
    · ext x
      rw [plain, List.mem_toFinset, Finset.mem_erase, List.mem_toFinset, hmem]
  | find v =>
    refine ⟨is, ?_, l, h, rfl⟩
    simp only [exec, plain, intsetFind_spec h, map_some, List.mem_toFinset]

/-- **One call** without room. -/
theorem IntsetOp.exec_none (op : IntsetOp) (h : is.Represents s) (hroom : ¬ op.Roomy is) (fill : ℕ → UInt8) : op.exec fill is = none := by
  obtain ⟨l, h, rfl⟩ := h
  cases op with
  | add v => exact intsetAdd_none h v hroom fill
  | remove v => exact absurd trivial hroom
  | find v => exact absurd trivial hroom

theorem intsetRun_iff (fill : ℕ → ℕ → UInt8) (ops : List IntsetOp) : ∀ {is : Intset} {s : Finset ℤ}, is.Represents s →
    (RoomyRun fill ops is ↔ ∃ is', intsetRun fill ops is = some (is', (finsetRun ops s).2) ∧ is'.Represents (finsetRun ops s).1) := by
  induction ops with
  | nil => exact fun h => iff_of_true trivial ⟨_, rfl, h⟩
  | cons op ops ih =>
    intro is s h
    by_cases hroom : op.Roomy is
    · obtain ⟨is', hexec, h'⟩ := op.exec_spec h hroom (fill ops.length)
      have hnext : (∀ r, op.exec (fill ops.length) is = some r → RoomyRun fill ops r.1) ↔ RoomyRun fill ops is' := by
        rw [hexec]
        exact ⟨fun hr => hr _ rfl, fun hr r he => Option.some.inj he ▸ hr⟩
      rw [RoomyRun, hnext, ih h', intsetRun, hexec, bind_some, finsetRun, and_iff_right hroom]
      constructor
      · rintro ⟨is'', hrun, h''⟩
        exact ⟨is'', by rw [hrun, map_some], h''⟩
      · rintro ⟨is'', hrun, h''⟩
        obtain ⟨r, hrest, he⟩ := map_eq_some_iff.1 hrun
        obtain ⟨rfl, hflags⟩ := Prod.mk.inj he
        exact ⟨r.1, by rw [hrest, ← (List.cons.inj hflags).2], h''⟩
    · refine iff_of_false (fun hr => hroom hr.1) ?_
      rintro ⟨is', hrun, -⟩
      rw [intsetRun, op.exec_none h hroom, bind_none] at hrun
      cases hrun

/-- **Sets of integers are finite sets of integers**, in exactly the runs whose calls all have room: in ascending order, each in a cell that it fits, the
length the number of members, and all flags right. -/
theorem intset_run (fill : ℕ → ℕ → UInt8) (ops : List IntsetOp) :
    RoomyRun fill ops intsetNew ↔ ∃ is, intsetRun fill ops intsetNew = some (is, (finsetRun ops ∅).2) ∧ is.Represents (finsetRun ops ∅).1 ∧
      is.length = (finsetRun ops ∅).1.card := by
  rw [intsetRun_iff fill ops intsetNew_represents]
  exact ⟨fun ⟨is, hrun, h⟩ => ⟨is, hrun, h, h.card⟩, fun ⟨is, hrun, h, _⟩ => ⟨is, hrun, h⟩⟩

def largeLong (i : ℕ) : Long := ⟨2 ^ 31 + (i % 2 ^ 32 : ℕ), by omega⟩

def largeAdds (n : ℕ) : List IntsetOp := (List.range n).map fun i => .add (largeLong i)

def largeIntegers (n : ℕ) : Finset ℤ := (Finset.range n).image fun i : ℕ => (2 ^ 31 + i : ℤ)

theorem card_largeIntegers (n : ℕ) : (largeIntegers n).card = n := by
  have hinj : Function.Injective fun i : ℕ => (2 ^ 31 + i : ℤ) := by
    intro i j hij
    dsimp only at hij
    omega
  rw [largeIntegers, Finset.card_image_of_injective _ hinj, Finset.card_range]

theorem insert_largeIntegers {n : ℕ} (hn : n < 2 ^ 32) : insert (largeLong n).1 (largeIntegers n) = largeIntegers (n + 1) := by
  have hval : (largeLong n).1 = 2 ^ 31 + n := by
    change 2 ^ 31 + ((n % 2 ^ 32 : ℕ) : ℤ) = 2 ^ 31 + n
    rw [Nat.mod_eq_of_lt hn]
  rw [largeIntegers, largeIntegers, Finset.range_add_one, Finset.image_insert, hval]

/-- 2^29 cells of 64 bits do not fit. -/
theorem not_represents_largeIntegers : ¬ is.Represents (largeIntegers (2 ^ 29)) := by
  rintro h
  have hcard := h.card
  rw [card_largeIntegers] at hcard
  obtain ⟨l, h, hl⟩ := h
  have hmem : (2 ^ 31 : ℤ) ∈ l := by
    rw [← List.mem_toFinset, hl]
    exact Finset.mem_image.2 ⟨0, Finset.mem_range.2 (by norm_num), by norm_num⟩
  have hfits := h.fits _ hmem
  have hsmall := h.small
  rw [← h.length, hcard] at hsmall
  rcases h.encoding with henc | henc | henc <;> rw [henc] at hfits hsmall
  · have := (fitsWidth_two.1 hfits).2
    omega
  · have := (fitsWidth_four.1 hfits).2
    omega
  · omega

theorem largeAdds_none (fill : ℕ → ℕ → UInt8) : ∀ (k n : ℕ) {is : Intset}, n + k = 2 ^ 29 → is.Represents (largeIntegers n) →
    intsetRun fill ((List.range' n k).map fun i => .add (largeLong i)) is = none := by
  intro k
  induction k with
  | zero =>
    intro n is hn h
    subst hn
    exact absurd h not_represents_largeIntegers
  | succ k ih =>
    intro n is hn h
    rw [range'_succ, map_cons, intsetRun]
    by_cases hroom : (IntsetOp.add (largeLong n)).Roomy is
    · obtain ⟨is', hexec, h'⟩ := IntsetOp.exec_spec _ h hroom (fill ((List.range' (n + 1) k).map fun i => IntsetOp.add (largeLong i)).length)
      rw [IntsetOp.plain, insert_largeIntegers (by omega)] at h'
      rw [hexec, bind_some, ih (n + 1) (by omega) h', map_none]
    · rw [IntsetOp.exec_none _ h hroom, bind_none]

/-- **Adding 2^29 integers of 64 bits**: the size of the memory wraps to 0 bytes, and the last one is written outside. -/
theorem intset_overflow : intsetRun (fun _ _ => 0) (largeAdds (2 ^ 29)) intsetNew = none := by
  rw [largeAdds, range_eq_range']
  exact largeAdds_none _ _ 0 (Nat.zero_add _) intsetNew_represents

end KVStores.Redis
