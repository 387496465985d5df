import Mathlib.Data.List.Basic
import Mathlib.Data.List.Chain
import Mathlib.Algebra.BigOperators.Group.List.Basic
import Mathlib.Algebra.Order.BigOperators.Group.List
import CubicleOS.Foundation.Outcome

/-!
# Core memory for dlmalloc

vfscore, ramfs, lwip, uknetdev and libnginx each have a dlmalloc of their own. It
asks for core memory by a function that it declares with a parameter of type `intptr_t`
and that is defined, in another file, with a parameter of type `unsigned`: the
increment arrives modulo `2 ^ 32`. The memory is taken from a pool that is
allocated on the first call; nothing is ever given back.
-/

namespace CubicleOS

open Foundation

namespace Morecore

/-! ## §1  The code -/

/-- The five copies; `heapmb` is `CONFIG_LINUXU_DEFAULT_HEAPMB`. -/
inductive Lib where
  | vfscore
  | ramfs (heapmb : ℕ)
  | lwip
  | uknetdev
  | libnginx
deriving DecidableEq, Repr

/-- `ch_size`. -/
def Lib.chSize : Lib → ℕ
  | .vfscore => 10 * 1024 * 1024
  | .ramfs heapmb => heapmb * 1024 * 1024 / 2
  | .lwip => 50 * 1024 * 1024
  | .uknetdev => 10 * 1024 * 1024
  | .libnginx => 50 * 1024 * 1024

/-- `ch_start`, zero for `NULL`, and `ch_ctr`. -/
structure Core where
  chStart : ℕ
  chCtr : ℕ
deriving DecidableEq, Repr

def Core.init : Core := { chStart := 0, chCtr := 0 }

/-- The pool is allocated when there is none; `mem` is what `malloc(ch_size)`
returns then. Without memory the cubicle stops. -/
def openPool (mem : ℕ) (c : Core) : Outcome Core :=
  if c.chStart = 0 then
    if mem = 0 then .spin else .done { chStart := mem, chCtr := 0 }
  else .done c

/-- The functions are the same but for the size of the pool, and whether it is
cleared. -/
def getMemoryFrom (chSize mem : ℕ) (c : Core) (numBytes : UInt32) : Outcome (ℕ × Core) :=
  (openPool mem c).bind fun c =>
    if c.chCtr + numBytes.toNat > chSize then .spin
    else .done (c.chStart + c.chCtr, { c with chCtr := c.chCtr + numBytes.toNat })

def getMemory : ℕ → Core → UInt32 → Outcome (ℕ × Core) := getMemoryFrom Lib.vfscore.chSize

def getMemoryRamfs (heapmb : ℕ) : ℕ → Core → UInt32 → Outcome (ℕ × Core) :=
  getMemoryFrom (Lib.ramfs heapmb).chSize

def getMemoryLwip : ℕ → Core → UInt32 → Outcome (ℕ × Core) := getMemoryFrom Lib.lwip.chSize

def getMemoryNetdev : ℕ → Core → UInt32 → Outcome (ℕ × Core) :=
  getMemoryFrom Lib.uknetdev.chSize

def getMemoryNginx : ℕ → Core → UInt32 → Outcome (ℕ × Core) :=
  getMemoryFrom Lib.libnginx.chSize

/-- How an `intptr_t` arrives as `unsigned`. -/
def numBytes (increment : Int64) : UInt32 := increment.toUInt64.toUInt32

/-- `MORECORE(increment)` as dlmalloc calls it. -/
def Lib.morecore : Lib → ℕ → Core → Int64 → Outcome (ℕ × Core)
  | .vfscore, mem, c, increment => getMemory mem c (numBytes increment)
  | .ramfs heapmb, mem, c, increment => getMemoryRamfs heapmb mem c (numBytes increment)
  | .lwip, mem, c, increment => getMemoryLwip mem c (numBytes increment)
  | .uknetdev, mem, c, increment => getMemoryNetdev mem c (numBytes increment)
  | .libnginx, mem, c, increment => getMemoryNginx mem c (numBytes increment)

/-- A call that has returned. -/
structure Grant where
  result : ℕ
  increment : Int64
deriving DecidableEq, Repr

/-- Where dlmalloc believes that the memory ends. -/
def Grant.stop (g : Grant) : ℕ := g.result + g.increment.toInt.toNat

/-- One call after the other. -/
def Lib.grants (lib : Lib) (mem : ℕ) : Core → List Int64 → Outcome (List Grant)
  | _, [] => .done []
  | c, increment :: rest =>
      (lib.morecore mem c increment).bind fun r =>
        (lib.grants mem r.2 rest).bind fun gs => .done ({ result := r.1, increment } :: gs)

/-- The contract of `MORECORE` with `MORECORE_CONTIGUOUS`: each grant begins
where the one before ended, grants do not overlap, and all lie in the pool. -/
structure Honoured (mem size : ℕ) (gs : List Grant) : Prop where
  contiguous : gs.IsChain fun g h => h.result = g.stop
  disjoint : gs.Pairwise fun g h => g.stop ≤ h.result ∨ h.stop ≤ g.result
  inside : ∀ g ∈ gs, mem ≤ g.result ∧ g.stop ≤ mem + size

/-! ## §2  What is granted -/

theorem morecore_eq (lib : Lib) (mem : ℕ) (c : Core) (increment : Int64) :
    lib.morecore mem c increment = getMemoryFrom lib.chSize mem c (numBytes increment) := by
  cases lib <;> rfl

/-- The value of a non-negative increment, and what is reserved for it. -/
theorem numBytes_toNat {increment : Int64} (h : 0 ≤ increment) :
    (numBytes increment).toNat = increment.toInt.toNat % 2 ^ 32 := by
  have hword : increment.toUInt64.toNat = increment.toInt.toNat := by
    have hnonneg : 0 ≤ increment.toBitVec.toInt := Int64.le_iff_toInt_le.mp h
    show increment.toBitVec.toNat = increment.toBitVec.toInt.toNat
    rw [BitVec.toInt_eq_toNat_cond] at hnonneg ⊢
    have hlt := increment.toBitVec.isLt
    split at hnonneg
    · rename_i hsmall
      rw [if_pos hsmall, Int.toNat_natCast]
    · omega
  unfold numBytes
  rw [UInt64.toNat_toUInt32, hword]

/-- Grants from address `a` on, when each moves it by what is reserved. -/
def laid (a : ℕ) : List Int64 → List Grant
  | [] => []
  | increment :: rest => { result := a, increment } :: laid (a + (numBytes increment).toNat) rest

/-- What is reserved in all. -/
def reserved (incs : List Int64) : ℕ := (incs.map fun i => (numBytes i).toNat).sum

/-- What was asked for in all. -/
def asked (incs : List Int64) : ℕ := (incs.map fun i => i.toInt.toNat).sum

/-- Once there is a pool, grants are laid out one behind the other. -/
theorem grants_laid {lib : Lib} {mem : ℕ} {incs : List Int64} {c : Core} {gs : List Grant}
    (hstart : c.chStart ≠ 0) (hctr : c.chCtr ≤ lib.chSize)
    (h : lib.grants mem c incs = .done gs) :
    gs = laid (c.chStart + c.chCtr) incs ∧ c.chCtr + reserved incs ≤ lib.chSize := by
  induction incs generalizing c gs with
  | nil =>
      cases h
      exact ⟨rfl, by simpa [reserved] using hctr⟩
  | cons increment rest ih =>
      obtain ⟨⟨r, c'⟩, hcall, h⟩ := Outcome.bind_eq_done.mp h
      obtain ⟨gs', hrest, h⟩ := Outcome.bind_eq_done.mp h
      cases h
      rw [morecore_eq] at hcall
      unfold getMemoryFrom openPool at hcall
      rw [if_neg hstart] at hcall
      obtain ⟨c₀, hc₀, hcall⟩ := Outcome.bind_eq_done.mp hcall
      cases hc₀
      split at hcall
      · cases hcall
      · rename_i hroom
        cases hcall
        have hctr' : c.chCtr + (numBytes increment).toNat ≤ lib.chSize := Nat.not_lt.mp hroom
        obtain ⟨hgs, hsize⟩ :=
          ih (c := { c with chCtr := c.chCtr + (numBytes increment).toNat }) hstart hctr' hrest
        refine ⟨?_, ?_⟩
        · rw [hgs]
          show _ = _ :: laid (c.chStart + c.chCtr + _) rest
          rw [Nat.add_assoc]
        · simp only [reserved, List.map_cons, List.sum_cons] at hsize ⊢
          omega

/-- From the first call on. -/
theorem grants_from_start {lib : Lib} {mem : ℕ} {incs : List Int64} {gs : List Grant}
    (h : lib.grants mem .init incs = .done gs) :
    gs = laid mem incs ∧ reserved incs ≤ lib.chSize := by
  cases incs with
  | nil =>
      cases h
      exact ⟨rfl, Nat.zero_le _⟩
  | cons increment rest =>
      have hmem : mem ≠ 0 := by
        rintro rfl
        obtain ⟨r, hcall, -⟩ := Outcome.bind_eq_done.mp h
        rw [morecore_eq] at hcall
        cases hcall
      -- the first call goes on as if the pool had been there
      have hsame : lib.grants mem { chStart := mem, chCtr := 0 } (increment :: rest) =
          .done gs := by
        rw [← h]
        unfold Lib.grants
        rw [morecore_eq, morecore_eq]
        unfold getMemoryFrom openPool
        simp [Core.init, hmem]
      obtain ⟨hgs, hsize⟩ := grants_laid hmem (Nat.zero_le _) hsame
      exact ⟨by simpa using hgs, by simpa using hsize⟩

/-! ## §3  The contract -/

/-- As long as nothing is lost on the way, every grant behind `a` begins where
the increments before it end. -/
theorem laid_bounds {incs : List Int64} (hnonneg : ∀ i ∈ incs, 0 ≤ i)
    (hfit : ∀ i ∈ incs.dropLast, i.toInt.toNat < 2 ^ 32) (a : ℕ) :
    ∀ g ∈ laid a incs, a ≤ g.result ∧ g.stop ≤ a + asked incs := by
  induction incs generalizing a with
  | nil =>
      intro g hg
      cases hg
  | cons increment rest ih =>
      intro g hg
      rcases List.mem_cons.mp hg with rfl | hg
      · refine ⟨le_refl a, ?_⟩
        simp only [Grant.stop, asked, List.map_cons, List.sum_cons]
        omega
      · cases rest with
        | nil => cases hg
        | cons next rest =>
            have hsmall := hfit increment List.mem_cons_self
            obtain ⟨hlo, hhi⟩ := ih (fun i hi => hnonneg i (List.mem_cons_of_mem _ hi))
              (fun i hi => hfit i (List.mem_cons_of_mem _ hi)) _ g hg
            rw [numBytes_toNat (hnonneg increment List.mem_cons_self),
              Nat.mod_eq_of_lt hsmall] at hlo hhi
            simp only [asked, List.map_cons, List.sum_cons] at hhi ⊢
            omega

theorem laid_contiguous {incs : List Int64} (hnonneg : ∀ i ∈ incs, 0 ≤ i) (a : ℕ) :
    ((laid a incs).IsChain fun g h => h.result = g.stop) ↔
      ∀ i ∈ incs.dropLast, i.toInt.toNat < 2 ^ 32 := by
  induction incs generalizing a with
  | nil => simp [laid]
  | cons increment rest ih =>
      cases rest with
      | nil => simp [laid]
      | cons next rest =>
          have hrest := ih (fun i hi => hnonneg i (List.mem_cons_of_mem _ hi))
            (a + (numBytes increment).toNat)
          have hlink : a + (numBytes increment).toNat = a + increment.toInt.toNat ↔
              increment.toInt.toNat < 2 ^ 32 := by
            rw [numBytes_toNat (hnonneg increment List.mem_cons_self)]
            have hlt := Nat.mod_lt increment.toInt.toNat (show 0 < 2 ^ 32 by decide)
            constructor
            · intro h
              omega
            · intro h
              rw [Nat.mod_eq_of_lt h]
          rw [List.dropLast_cons_cons, List.forall_mem_cons, ← hrest, ← hlink]
          exact List.isChain_cons_cons

theorem laid_disjoint {incs : List Int64} (hnonneg : ∀ i ∈ incs, 0 ≤ i)
    (hfit : ∀ i ∈ incs.dropLast, i.toInt.toNat < 2 ^ 32) (a : ℕ) :
    (laid a incs).Pairwise fun g h => g.stop ≤ h.result := by
  induction incs generalizing a with
  | nil => exact List.Pairwise.nil
  | cons increment rest ih =>
      cases rest with
      | nil => simp [laid]
      | cons next rest =>
          have htail : ∀ i ∈ next :: rest, 0 ≤ i :=
            fun i hi => hnonneg i (List.mem_cons_of_mem _ hi)
          have hfit' : ∀ i ∈ (next :: rest).dropLast, i.toInt.toNat < 2 ^ 32 :=
            fun i hi => hfit i (List.mem_cons_of_mem _ hi)
          refine List.Pairwise.cons (fun g hg => ?_) (ih htail hfit' _)
          have hlo := (laid_bounds htail hfit' _ g hg).1
          rw [numBytes_toNat (hnonneg increment List.mem_cons_self),
            Nat.mod_eq_of_lt (hfit increment List.mem_cons_self)] at hlo
          exact hlo

/-- The last grant ends where all increments together end. -/
theorem laid_last {incs : List Int64} (hnonneg : ∀ i ∈ incs, 0 ≤ i)
    (hfit : ∀ i ∈ incs.dropLast, i.toInt.toNat < 2 ^ 32) (hne : incs ≠ []) (a : ℕ) :
    ∃ g ∈ laid a incs, g.stop = a + asked incs := by
  induction incs generalizing a with
  | nil => exact absurd rfl hne
  | cons increment rest ih =>
      cases rest with
      | nil =>
          refine ⟨_, List.mem_cons_self, ?_⟩
          simp [Grant.stop, asked]
      | cons next rest =>
          obtain ⟨g, hg, hstop⟩ := ih (fun i hi => hnonneg i (List.mem_cons_of_mem _ hi))
            (fun i hi => hfit i (List.mem_cons_of_mem _ hi)) (List.cons_ne_nil _ _)
            (a + (numBytes increment).toNat)
          refine ⟨g, List.mem_cons_of_mem _ hg, hstop.trans ?_⟩
          rw [numBytes_toNat (hnonneg increment List.mem_cons_self),
            Nat.mod_eq_of_lt (hfit increment List.mem_cons_self)]
          simp only [asked, List.map_cons, List.sum_cons]
          omega

/-- **The contract, exactly.** Calls with non-negative increments that all return
honour it if, and only if, every increment but the last is below 4 GiB and
together they do not exceed the pool. -/
theorem contract_iff (lib : Lib) {mem : ℕ} {incs : List Int64} (hnonneg : ∀ i ∈ incs, 0 ≤ i)
    {gs : List Grant} (h : lib.grants mem .init incs = .done gs) :
    Honoured mem lib.chSize gs ↔
      (∀ i ∈ incs.dropLast, i.toInt.toNat < 2 ^ 32) ∧ asked incs ≤ lib.chSize := by
  obtain ⟨rfl, -⟩ := grants_from_start h
  constructor
  · intro hkept
    have hfit := (laid_contiguous hnonneg mem).mp hkept.contiguous
    refine ⟨hfit, ?_⟩
    by_cases hne : incs = []
    · subst hne
      exact Nat.zero_le _
    · obtain ⟨g, hg, hstop⟩ := laid_last hnonneg hfit hne mem
      have hin := (hkept.inside g hg).2
      omega
  · rintro ⟨hfit, hsize⟩
    refine ⟨(laid_contiguous hnonneg mem).mpr hfit, ?_, fun g hg => ?_⟩
    · exact (laid_disjoint hnonneg hfit mem).imp fun hle => Or.inl hle
    · obtain ⟨hlo, hhi⟩ := laid_bounds hnonneg hfit mem g hg
      exact ⟨hlo, by omega⟩

/-- Requests of a page and of nothing to lwip's pool. -/
theorem small_requests_honoured :
    Honoured 0x7000000 Lib.lwip.chSize
      [{ result := 0x7000000, increment := 0 }, { result := 0x7000000, increment := 4096 },
        { result := 0x7001000, increment := 64 }] := by
  have hmem : ∀ i ∈ ([0, 4096, 64] : List Int64), i = 0 ∨ i = 4096 ∨ i = 64 := by
    simp
  refine (@contract_iff .lwip _ [0, 4096, 64] (fun i hi => ?_) _ (by decide +kernel)).mpr
    ⟨fun i hi => ?_, by decide +kernel⟩
  · rcases hmem i hi with rfl | rfl | rfl <;> decide
  · rcases hmem i (List.mem_of_mem_dropLast hi) with rfl | rfl | rfl <;> decide

/-- The dlmalloc of ramfs asks for 4 GiB, for a file that was made that long, and
for a page. Nothing is reserved for the first request, so that both get the same
address, and the first one ends far behind the pool of 250 MiB. -/
theorem four_gib_not_reserved :
    (Lib.ramfs 500).grants 0x7000000 .init [0x100000000, 4096] =
        .done [{ result := 0x7000000, increment := 0x100000000 },
          { result := 0x7000000, increment := 4096 }] ∧
      ¬ Honoured 0x7000000 (Lib.ramfs 500).chSize
        [{ result := 0x7000000, increment := 0x100000000 },
          { result := 0x7000000, increment := 4096 }] := by
  refine ⟨by decide +kernel, fun h => ?_⟩
  have hin := h.inside { result := 0x7000000, increment := 0x100000000 } List.mem_cons_self
  exact absurd hin.2 (by decide +kernel)

end Morecore

end CubicleOS
