import KVStores.Lib.ByteFile
import Mathlib.Data.List.Perm.Basic

/-!
# Blocks in a region

A block is an extent: where it starts and how long it is. `Apart l lo hi`: the blocks `l` lie
between `lo` and `hi` and do not overlap. `Covers l lo hi`: they leave no gap.

`writeAll f images`: the blocks `images` written one after the other; when they are apart,
each can be read afterwards (`read_writeAll`) and nothing else changes (`byte_writeAll`).
-/

namespace KVStores

open List

abbrev Extent := ℕ × ℕ

def Extent.Disjoint (a b : Extent) : Prop := a.1 + a.2 ≤ b.1 ∨ b.1 + b.2 ≤ a.1

theorem Extent.Disjoint.symm {a b : Extent} (h : a.Disjoint b) : b.Disjoint a := Or.symm h

/-- The blocks lie between `lo` and `hi` and do not overlap. -/
structure Apart (l : List Extent) (lo hi : ℕ) : Prop where
  disjoint : l.Pairwise Extent.Disjoint
  within : ∀ e ∈ l, lo ≤ e.1 ∧ e.1 + e.2 ≤ hi ∧ 0 < e.2

/-- `n` blocks of one length, one behind the other. -/
def steps (base len n : ℕ) : List Extent := (List.range n).map fun i => (base + i * len, len)

variable {l l' : List Extent} {lo mid hi : ℕ}

theorem Apart.perm (h : Apart l lo hi) (hp : l.Perm l') : Apart l' lo hi :=
  ⟨(hp.pairwise_iff Extent.Disjoint.symm).1 h.disjoint, fun e he => h.within e (hp.mem_iff.2 he)⟩

theorem Apart.sublist (h : Apart l lo hi) (hs : l'.Sublist l) : Apart l' lo hi :=
  ⟨h.disjoint.sublist hs, fun e he => h.within e (hs.subset he)⟩

theorem Apart.append (h : Apart l lo mid) (h' : Apart l' mid hi) (hl : lo ≤ mid) (hm : mid ≤ hi) : Apart (l ++ l') lo hi where
  disjoint := pairwise_append.2 ⟨h.disjoint, h'.disjoint, fun a ha b hb =>
    Or.inl (le_trans (h.within a ha).2.1 (h'.within b hb).1)⟩
  within e he := by
    rcases mem_append.1 he with he | he
    · have := h.within e he; omega
    · have := h'.within e he; omega

theorem Apart.disjoint_of_append (h : Apart (l ++ l') lo hi) {a b : Extent} (ha : a ∈ l) (hb : b ∈ l') : a.Disjoint b :=
  (pairwise_append.1 h.disjoint).2.2 a ha b hb

@[simp] theorem steps_zero (base len : ℕ) : steps base len 0 = [] := rfl

@[simp] theorem steps_length (base len n : ℕ) : (steps base len n).length = n := by simp [steps]

theorem steps_succ (base len n : ℕ) : steps base len (n + 1) = steps base len n ++ [(base + n * len, len)] := by
  simp [steps, range_succ]

theorem apart_steps {base len : ℕ} (hlen : 0 < len) (n : ℕ) : Apart (steps base len n) base (base + n * len) := by
  induction n with
  | zero => exact ⟨List.Pairwise.nil, by simp⟩
  | succ n ih =>
    rw [steps_succ]
    refine @Apart.append _ _ _ (base + n * len) _ ih ⟨pairwise_singleton _ _, ?_⟩ (by omega) ?_
    · intro e he
      rw [mem_singleton] at he
      subst he
      exact ⟨le_rfl, by rw [add_mul, one_mul, add_assoc], hlen⟩
    · rw [add_mul]; omega

/-- A block as it is to stand in the file: where, and its bytes. -/
abbrev Image := ℕ × List UInt8

def Image.extent (e : Image) : Extent := (e.1, e.2.length)

namespace ByteFile

def writeAll (f : ByteFile) (images : List Image) : ByteFile := images.foldl (fun f e => f.write e.1 e.2) f

variable {f : ByteFile} {images : List Image}

theorem size_writeAll : ∀ {images : List Image} {f : ByteFile}, (∀ e ∈ images, e.1 + e.2.length ≤ f.size) →
    (f.writeAll images).size = f.size := by
  intro images
  induction images with
  | nil => exact fun _ => rfl
  | cons e images ih =>
    intro f h
    have hsize : (f.write e.1 e.2).size = f.size := size_write (h e mem_cons_self)
    rw [writeAll, foldl_cons, ← writeAll, ih fun d hd => by rw [hsize]; exact h d (mem_cons_of_mem _ hd), hsize]

/-- **Nothing else changes.** -/
theorem byte_writeAll {p : ℕ} : ∀ {images : List Image} {f : ByteFile}, p < f.size →
    (∀ e ∈ images, p < e.1 ∨ e.1 + e.2.length ≤ p) → (f.writeAll images).byte p = f.byte p := by
  intro images
  induction images with
  | nil => exact fun _ _ => rfl
  | cons e images ih =>
    intro f hp h
    have hsize := @size_le_write f e.1 e.2
    have hbyte : (f.write e.1 e.2).byte p = f.byte p := by
      have := h e mem_cons_self
      simp only [write]
      rw [if_neg (by omega), if_neg (by omega)]
    rw [writeAll, foldl_cons, ← writeAll, ih (by omega) fun d hd => h d (mem_cons_of_mem _ hd), hbyte]

/-- **Each block can be read.** -/
theorem read_writeAll : ∀ {images : List Image} {f : ByteFile}, (images.map Image.extent).Pairwise Extent.Disjoint →
    (∀ e ∈ images, e.1 + e.2.length ≤ f.size) → ∀ e ∈ images, (f.writeAll images).read e.1 e.2.length = e.2 := by
  intro images
  induction images with
  | nil => exact fun _ _ e he => absurd he (by simp)
  | cons d images ih =>
    intro f hdisj hin e he
    rw [map_cons, pairwise_cons] at hdisj
    have hsize : (f.write d.1 d.2).size = f.size := size_write (hin d mem_cons_self)
    have hin' : ∀ e ∈ images, e.1 + e.2.length ≤ (f.write d.1 d.2).size := fun e he => by
      rw [hsize]; exact hin e (mem_cons_of_mem _ he)
    rw [writeAll, foldl_cons, ← writeAll]
    rcases mem_cons.1 he with rfl | he
    · -- written first, and not touched by the others
      have hd := hin e mem_cons_self
      rw [read_congr (f := f.write e.1 e.2) (by omega) (by rw [size_writeAll hin']; omega), read_write_same]
      intro p h1 h2
      refine byte_writeAll (by omega) fun c hc => ?_
      have := hdisj.1 _ (List.mem_map_of_mem hc)
      simp only [Extent.Disjoint, Image.extent] at this
      omega
    · exact ih hdisj.2 hin' e he

end ByteFile

end KVStores
