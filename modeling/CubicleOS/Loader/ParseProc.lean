import CubicleOS.Foundation.Pages
import CubicleOS.Foundation.Text
import CubicleOS.Monitor.ProcMap

/-!
# Where the modules are

`parse_proc` reads `/proc/self/maps` and gives each module an address range: it
starts at the first line with the module's path and is as long as that line and
the lines behind it together, up to a line of another file. Lines without a
file belong to the module before them.
-/

namespace CubicleOS

open Foundation

/-! ## §1  The code -/

/-- A line of `/proc/self/maps`, as `sscanf` takes it apart. A line without a
path has `path = ""`. -/
structure MapLine where
  start : UInt64
  stop : UInt64
  inode : ℕ
  path : String
deriving DecidableEq, Repr

/-- The path of a module of the directory `dir`. -/
def modulePath (dir name : String) : String := dir ++ "/" ++ name

/-- The `end` that is counted for a line. The region in front of the C library
holds three pages that are the library's. -/
def countedStop (l : MapLine) (next : List MapLine) : Outcome UInt64 :=
  if l.inode = 0 then
    match next with
    | [] => .wild
    | n :: _ =>
        if contains "libc-" n.path.toList then
          if l.stop < 0x3000 then .spin else .done (l.stop - 0x3000)
        else .done l.stop
  else .done l.stop

/-- The `do` loop of `parse_proc` with `*mstart` and `*msize`. It ends at a
line of another file or at a bracketed name, and reads on behind the listing
when there is none. -/
def parseLoop (wd : String) : List MapLine → UInt64 → UInt64 → Outcome (UInt64 × UInt64)
  | [], _, _ => .wild
  | l :: ls, mstart, msize =>
      if l.path.toList.head? = some '[' ∨ (l.path ≠ wd ∧ l.inode ≠ 0) then
        .done (mstart, msize)
      else
        (countedStop l ls).bind fun stop =>
          parseLoop wd ls (if mstart = 0 then l.start else mstart)
            (msize + (stop - l.start))

/-- `parse_proc` for one entry. A module that is not mapped keeps its entry. -/
def parseProc (dir : String) (maps : List MapLine) (e : ProcMap) : Outcome ProcMap :=
  if 1024 < maps.length then .wild
  else
    match maps.dropWhile (·.path ≠ modulePath dir e.name) with
    | [] => .done e
    | l :: ls =>
        (parseLoop (modulePath dir e.name) (l :: ls) 0 0).bind fun r =>
          .done { e with start := r.1, size := r.2 }

/-- The loop of `main` over the table. -/
def parseAll (dir : String) (maps : List MapLine) : Pmap → Outcome Pmap
  | [] => .done []
  | e :: es =>
      (parseProc dir maps e).bind fun e' =>
        (parseAll dir maps es).bind fun es' => .done (e' :: es')

/-! ## §2  Ranges end before the next file -/

/-- What the kernel and the dynamic linker promise: the listing is sorted, and
shared objects do not lie in the first megabytes. -/
structure Listing (dir : String) (maps : List MapLine) : Prop where
  sorted : maps.Pairwise fun a b => a.stop ≤ b.start
  nonempty : ∀ l ∈ maps, l.start < l.stop
  high : ∀ l ∈ maps, ∀ name, l.path = modulePath dir name → 0xC00000 ≤ l.start

theorem countedStop_bounds {l : MapLine} {next : List MapLine} {stop : UInt64}
    (h : countedStop l next = .done stop) :
    stop.toNat ≤ l.stop.toNat ∧ l.stop.toNat ≤ stop.toNat + 0x3000 := by
  unfold countedStop at h
  split at h
  · split at h
    · cases h
    · split at h
      · split at h
        · cases h
        · rename_i hge
          cases h
          have hge : (0x3000 : UInt64) ≤ l.stop := UInt64.not_lt.mp hge
          rw [UInt64.toNat_sub_of_le _ _ hge]
          have hle : (0x3000 : UInt64).toNat ≤ l.stop.toNat := hge
          have h3 : (0x3000 : UInt64).toNat = 0x3000 := rfl
          omega
      · cases h
        omega
  · cases h
    omega

/-- Counting a line moves the end of the range to at most the end of the line,
and back by at most three pages. -/
theorem counted_end {a b start : UInt64} {k : ℕ} (stop : UInt64)
    (hk : (a + b).toNat = k) (hstart : k ≤ start.toNat)
    (hroom : start.toNat ≤ k + stop.toNat) :
    (a + (b + (stop - start))).toNat = k + stop.toNat - start.toNat := by
  have hsum : a + (b + (stop - start)) = (a + b) + (stop - start) := by
    rw [UInt64.add_assoc]
  have hlt := stop.toNat_lt
  have hlt' := start.toNat_lt
  rw [hsum, UInt64.toNat_add, UInt64.toNat_sub, hk]
  omega

theorem parseLoop_avoids {wd : String} {mstart : UInt64} (hm : mstart ≠ 0) :
    ∀ {ls : List MapLine} {msize s n : UInt64},
      (ls.Pairwise fun a b => a.stop ≤ b.start) → (∀ l ∈ ls, l.start < l.stop) →
      (∀ l ∈ ls, (mstart + msize).toNat ≤ l.start.toNat) →
      0x3000 * ls.length ≤ (mstart + msize).toNat →
      parseLoop wd ls mstart msize = .done (s, n) →
      s = mstart ∧ ∀ l ∈ ls, l.inode ≠ 0 → l.path ≠ wd →
        (s + n).toNat ≤ l.start.toNat
  | [], _, _, _, _, _, _, _, h => by cases h
  | l :: ls, msize, s, n, hsorted, hne, hbelow, hroom, h => by
      obtain ⟨hfirst, hsorted⟩ := List.pairwise_cons.mp hsorted
      unfold parseLoop at h
      split at h
      · cases h
        exact ⟨rfl, fun l' hl' _ _ => hbelow l' hl'⟩
      · rename_i hgo
        obtain ⟨stop, hstop, h⟩ := Outcome.bind_eq_done.mp h
        obtain ⟨hle, hge⟩ := countedStop_bounds hstop
        have hl : l.start.toNat < l.stop.toNat := hne l List.mem_cons_self
        have hb := hbelow l List.mem_cons_self
        rw [List.length_cons] at hroom
        have hend := counted_end stop rfl hb (by omega)
        have hbelow' : ∀ l' ∈ ls,
            (mstart + (msize + (stop - l.start))).toNat ≤ l'.start.toNat := by
          intro l' hl'
          have hnext : l.stop.toNat ≤ l'.start.toNat := hfirst l' hl'
          omega
        obtain ⟨hs, hrest⟩ := parseLoop_avoids hm hsorted
          (fun l' hl' => hne l' (List.mem_cons_of_mem l hl')) hbelow' (by omega) h
        refine ⟨hs, fun l' hl' hino hpath => ?_⟩
        rcases List.mem_cons.mp hl' with rfl | hl'
        · exact absurd (Or.inr ⟨hpath, hino⟩) hgo
        · exact hrest l' hl' hino hpath

/-- The search stops at the first line with the module's path. -/
theorem dropWhile_path {maps : List MapLine} {wd : String} {l : MapLine}
    {ls : List MapLine} (h : maps.dropWhile (·.path ≠ wd) = l :: ls) :
    maps.find? (·.path = wd) = some l ∧ l.path = wd ∧ ∃ pre, maps = pre ++ l :: ls := by
  have hfind : maps.find? (·.path = wd) = some l := by
    rw [List.find?_eq_head?_dropWhile_not]
    simp only [ne_eq, decide_not] at h
    rw [h]
    rfl
  refine ⟨hfind, by simpa using List.find?_some hfind, maps.takeWhile (·.path ≠ wd), ?_⟩
  rw [← h]
  exact List.takeWhile_append_dropWhile.symm

/-- The range that `parse_proc` finds for a mapped module starts with the
module's first line and ends before any line of another file behind it. -/
structure Placed (dir : String) (maps : List MapLine) (e : ProcMap) : Prop where
  first : ∃ l, maps.find? (·.path = modulePath dir e.name) = some l ∧ e.start = l.start
  avoids : ∀ l ∈ maps, l.inode ≠ 0 → l.path ≠ modulePath dir e.name →
    e.start ≤ l.start → (e.start + e.size).toNat ≤ l.start.toNat

theorem parseProc_placed {dir : String} {maps : List MapLine} {e e' : ProcMap}
    (hmaps : Listing dir maps) (hsize : e.size = 0)
    (h : parseProc dir maps e = .done e') :
    e'.name = e.name ∧ e'.must = e.must ∧ (e'.size = 0 ∨ Placed dir maps e') := by
  unfold parseProc at h
  split at h
  · cases h
  rename_i hlen
  split at h
  · cases h
    exact ⟨rfl, rfl, Or.inl hsize⟩
  rename_i l ls hdrop
  obtain ⟨⟨s, n⟩, hloop, h⟩ := Outcome.bind_eq_done.mp h
  cases h
  refine ⟨rfl, rfl, ?_⟩
  obtain ⟨hfind, hpath, pre, rfl⟩ := dropWhile_path hdrop
  obtain ⟨-, hrest, hpre⟩ := List.pairwise_append.mp hmaps.sorted
  obtain ⟨hnext, hsorted⟩ := List.pairwise_cons.mp hrest
  have hmem : l ∈ pre ++ l :: ls := List.mem_append_right pre List.mem_cons_self
  have hhigh : 0xC00000 ≤ l.start.toNat := hmaps.high l hmem e.name hpath
  have hl : l.start.toNat < l.stop.toNat := hmaps.nonempty l hmem
  unfold parseLoop at hloop
  split at hloop
  · -- a bracketed path: no range
    cases hloop
    exact Or.inl rfl
  obtain ⟨stop, hstop, hloop⟩ := Outcome.bind_eq_done.mp hloop
  rw [if_pos rfl] at hloop
  obtain ⟨hle, hge⟩ := countedStop_bounds hstop
  have hend : (l.start + (0 + (stop - l.start))).toNat = stop.toNat := by
    rw [UInt64.zero_add, UInt64.add_comm, UInt64.sub_add_cancel]
  have hne : l.start ≠ 0 := by
    rintro hzero
    rw [hzero] at hhigh
    exact absurd hhigh (by decide)
  obtain ⟨rfl, havoid⟩ := parseLoop_avoids hne hsorted
    (fun l' hl' => hmaps.nonempty l' (List.mem_append_right pre (List.mem_cons_of_mem l hl')))
    (fun l' hl' => by
      have hl'' : l.stop.toNat ≤ l'.start.toNat := hnext l' hl'
      omega)
    (by
      simp only [List.length_append, List.length_cons] at hlen
      omega)
    hloop
  refine Or.inr ⟨⟨l, hfind, rfl⟩, fun l' hl' hino hpath' hafter => ?_⟩
  rcases List.mem_append.mp hl' with hl' | hl'
  · -- a line in front of the module
    have hstop' : l'.stop.toNat ≤ l.start.toNat := hpre l' hl' l List.mem_cons_self
    have hstart' : l'.start.toNat < l'.stop.toNat :=
      hmaps.nonempty l' (List.mem_append_left _ hl')
    have hafter : l.start.toNat ≤ l'.start.toNat := hafter
    omega
  · rcases List.mem_cons.mp hl' with rfl | hl'
    · exact absurd hpath hpath'
    · exact havoid l' hl' hino hpath'

theorem parseAll_entry {dir : String} {maps : List MapLine} :
    ∀ {pm pm' : Pmap}, parseAll dir maps pm = .done pm' → ∀ e' ∈ pm',
      ∃ e ∈ pm, parseProc dir maps e = .done e'
  | [], _, h, e', he' => by
      cases h
      cases he'
  | e :: es, _, h, e', he' => by
      obtain ⟨x, hx, h⟩ := Outcome.bind_eq_done.mp h
      obtain ⟨xs, hxs, h⟩ := Outcome.bind_eq_done.mp h
      cases h
      rcases List.mem_cons.mp he' with rfl | he'
      · exact ⟨e, List.mem_cons_self, hx⟩
      · obtain ⟨y, hy, hy'⟩ := parseAll_entry hxs e' he'
        exact ⟨y, List.mem_cons_of_mem e hy, hy'⟩

theorem modulePath_injective (dir : String) : Function.Injective (modulePath dir) := by
  intro a b h
  exact (String.append_right_inj _).mp h

/-- A line is known by its start. -/
theorem Listing.eq_of_start {dir : String} {maps : List MapLine}
    (h : Listing dir maps) {l l' : MapLine} (hl : l ∈ maps) (hl' : l' ∈ maps)
    (hstart : l.start = l'.start) : l = l' := by
  by_contra hne
  have hpair : maps.Pairwise fun a b => a.stop ≤ b.start ∨ b.stop ≤ a.start :=
    h.sorted.imp fun hab => Or.inl hab
  have hn : l.start.toNat < l.stop.toNat := h.nonempty l hl
  have hn' : l'.start.toNat < l'.stop.toNat := h.nonempty l' hl'
  have hs : l.start.toNat = l'.start.toNat := congrArg UInt64.toNat hstart
  have : Std.Symm fun a b : MapLine => a.stop ≤ b.start ∨ b.stop ≤ a.start :=
    ⟨fun _ _ => Or.symm⟩
  rcases hpair.forall hl hl' hne with hab | hba
  · have hab : l.stop.toNat ≤ l'.start.toNat := hab
    omega
  · have hba : l'.stop.toNat ≤ l.start.toNat := hba
    omega

/-! ## §3  Ranges cover the modules -/

/-- The name is one of the kernel's own, as `[stack]`. -/
def MapLine.bracketed (l : MapLine) : Bool := decide (l.path.toList.head? = some '[')

/-- A region without a file. -/
def MapLine.anonymous (l : MapLine) : Bool := decide (l.inode = 0) && !l.bracketed

/-- The lines that map the file `wd`, from the first of them on. -/
def ownLines (wd : String) (maps : List MapLine) : List MapLine :=
  (maps.dropWhile (·.path ≠ wd)).takeWhile (·.path = wd)

/-- What follows them. -/
def restLines (wd : String) (maps : List MapLine) : List MapLine :=
  (maps.dropWhile (·.path ≠ wd)).dropWhile (·.path = wd)

/-- The anonymous regions right behind them. -/
def anonLines (wd : String) (maps : List MapLine) : List MapLine :=
  (restLines wd maps).takeWhile MapLine.anonymous

/-- The first line behind these. -/
def lineBehind (wd : String) (maps : List MapLine) : Option MapLine :=
  ((restLines wd maps).dropWhile MapLine.anonymous).head?

/-- A listing as the kernel writes it, of at most as many lines as there is room
for, in which the lines of each of the modules `names` lie together. -/
structure ModuleListing (dir : String) (names : List String) (maps : List MapLine) : Prop where
  room : maps.length ≤ 1024
  sorted : maps.Pairwise fun a b => a.stop ≤ b.start
  nonempty : ∀ l ∈ maps, l.start < l.stop
  aligned : ∀ l ∈ maps, 4096 ∣ l.start.toNat ∧ 4096 ∣ l.stop.toNat
  unnamed : ∀ l ∈ maps, l.inode = 0 → l.path = "" ∨ l.bracketed = true
  closed : ∃ l, maps.getLast? = some l ∧ l.bracketed = true
  absolute : dir.toList.head? = some '/'
  consecutive : ∀ name ∈ names, ∀ l ∈ restLines (modulePath dir name) maps,
    l.path ≠ modulePath dir name
  contiguous : ∀ name ∈ names,
    (ownLines (modulePath dir name) maps).IsChain fun a b => a.stop = b.start

/-- Some line maps the module. -/
def IsListed (dir : String) (maps : List MapLine) (name : String) : Prop :=
  ∃ l ∈ maps, l.path = modulePath dir name

/-- `parse_proc` has a range for every listed module that holds all of its
lines, and the ranges of different modules have no address in common. An address
is compared with a range as `mem_to_lib` does it. -/
structure RangesRight (dir : String) (names : List String) (maps : List MapLine) : Prop where
  covers : ∀ name ∈ names, IsListed dir maps name → ∀ e : ProcMap, e.name = name →
    ∃ e', parseProc dir maps e = .done e' ∧
      ∀ l ∈ maps, l.path = modulePath dir name → ∀ a, l.start ≤ a → a < l.stop →
        inBlock e'.start e'.size a = true
  apart : ∀ m ∈ names, ∀ n ∈ names, m ≠ n → IsListed dir maps m → IsListed dir maps n →
    ∀ e e' f f' : ProcMap, e.name = m → f.name = n → parseProc dir maps e = .done e' →
      parseProc dir maps f = .done f' →
      ∀ a, ¬ (inBlock e'.start e'.size a = true ∧ inBlock f'.start f'.size a = true)

/-- Bytes of the regions. -/
def regionBytes (ls : List MapLine) : ℕ := (ls.map fun l => l.stop.toNat - l.start.toNat).sum

@[simp] theorem regionBytes_nil : regionBytes [] = 0 := rfl

@[simp] theorem regionBytes_cons (l : MapLine) (ls : List MapLine) :
    regionBytes (l :: ls) = l.stop.toNat - l.start.toNat + regionBytes ls := rfl

/-- The line is one of the C library's, to which three pages in front of it are
left. -/
def MapLine.isLibc (l : MapLine) : Bool := contains "libc-" l.path.toList

/-- The three pages are there to be left to the C library, and no second line is
counted for a module at address zero. -/
structure Spared (wd : String) (maps : List MapLine) : Prop where
  libc : ∀ z ∈ lineBehind wd maps, z.isLibc = true → anonLines wd maps ≠ [] →
    0x3000 ≤ regionBytes (anonLines wd maps)
  high : ∀ l ∈ (ownLines wd maps).head?, l.start = 0 →
    (ownLines wd maps).length + (anonLines wd maps).length = 1

section Loop

variable {wd : String}

/-- The line at which the loop stops. -/
def Ends (wd : String) (l : MapLine) : Prop :=
  l.bracketed = true ∨ (l.path ≠ wd ∧ l.inode ≠ 0)

/-- An anonymous line counts up to its end, or to three pages in front of it. -/
theorem countedStop_anonymous {l : MapLine} (h : l.inode = 0) (hge : 0x3000 ≤ l.stop.toNat)
    (z : MapLine) (post : List MapLine) :
    ∃ stop, countedStop l (z :: post) = .done stop ∧
      stop.toNat = l.stop.toNat - if z.isLibc = true then 0x3000 else 0 := by
  have hcount : countedStop l (z :: post) =
      if z.isLibc = true then if l.stop < 0x3000 then .spin else .done (l.stop - 0x3000)
      else .done l.stop := by
    unfold countedStop
    rw [if_pos h]
    rfl
  have hle : (0x3000 : UInt64) ≤ l.stop := UInt64.le_iff_toNat_le.mpr hge
  by_cases hlibc : z.isLibc = true
  · rw [if_pos hlibc, if_neg (UInt64.not_lt.mpr hle)] at hcount
    refine ⟨_, hcount, ?_⟩
    rw [if_pos hlibc, UInt64.toNat_sub_of_le _ _ hle]
    rfl
  · rw [if_neg hlibc] at hcount
    exact ⟨_, hcount, by rw [if_neg hlibc, Nat.sub_zero]⟩

theorem parseLoop_ends {z : MapLine} (hz : Ends wd z) (post : List MapLine) (m n : UInt64) :
    parseLoop wd (z :: post) m n = .done (m, n) := by
  unfold parseLoop
  rw [if_pos]
  simpa [Ends, MapLine.bracketed] using hz

theorem parseLoop_goes {l : MapLine} (hl : ¬ Ends wd l) (ls : List MapLine) (m n : UInt64) :
    parseLoop wd (l :: ls) m n = (countedStop l ls).bind fun stop =>
      parseLoop wd ls (if m = 0 then l.start else m) (n + (stop - l.start)) := by
  rw [parseLoop, if_neg]
  simpa [Ends, MapLine.bracketed] using hl

/-- A start that has been set stays. -/
theorem parseLoop_start {m : UInt64} (hm : m ≠ 0) {ls : List MapLine} {n s k : UInt64}
    (h : parseLoop wd ls m n = .done (s, k)) : s = m := by
  induction ls generalizing n with
  | nil => cases h
  | cons l ls ih =>
      by_cases hl : Ends wd l
      · rw [parseLoop_ends hl] at h
        cases h
        rfl
      · rw [parseLoop_goes hl] at h
        obtain ⟨stop, -, h⟩ := Outcome.bind_eq_done.mp h
        rw [if_neg hm] at h
        exact ih h

/-- Own lines that follow each other move the end to the end of the last. -/
theorem parseLoop_own {m : UInt64} (hm : m ≠ 0) {own : List MapLine}
    (hown : ∀ l ∈ own, ¬ Ends wd l ∧ l.inode ≠ 0) {first : MapLine}
    (hchain : (first :: own).IsChain fun a b => a.stop = b.start) (rest : List MapLine)
    {n : UInt64} (hend : m + n = first.stop) :
    ∃ k, parseLoop wd (own ++ rest) m n = parseLoop wd rest m k ∧
      m + k = ((first :: own).getLast (List.cons_ne_nil _ _)).stop := by
  induction own generalizing first n with
  | nil => exact ⟨n, rfl, hend⟩
  | cons l own ih =>
      obtain ⟨hnext, hchain⟩ := List.isChain_cons_cons.mp hchain
      obtain ⟨hgo, hinode⟩ := hown l List.mem_cons_self
      have hcount : countedStop l (own ++ rest) = .done l.stop := if_neg hinode
      have hend' : m + (n + (l.stop - l.start)) = l.stop := by
        rw [← UInt64.add_assoc, hend, hnext, UInt64.add_comm, UInt64.sub_add_cancel]
      obtain ⟨k, hk, hlast⟩ := ih (fun l' hl' => hown l' (List.mem_cons_of_mem l hl')) hchain
        hend'
      refine ⟨k, ?_, ?_⟩
      · rw [List.cons_append, parseLoop_goes hgo, hcount]
        show parseLoop wd (own ++ rest) (if m = 0 then l.start else m) _ = _
        rw [if_neg hm]
        exact hk
      · rw [hlast, List.getLast_cons_cons]

/-- Anonymous lines in front of a line that is none. Gaps between them are not
counted, so that the end stays in front of that line. -/
theorem parseLoop_anon {m : UInt64} (hm : m ≠ 0) {z : MapLine} (hz : Ends wd z)
    (post : List MapLine) {anon : List MapLine}
    (hanon : ∀ l ∈ anon, l.inode = 0 ∧ l.path = "")
    (hsorted : (anon ++ [z]).Pairwise fun a b => a.stop ≤ b.start)
    (hpages : ∀ l ∈ anon, l.start.toNat + 0x1000 ≤ l.stop.toNat) {n : UInt64}
    (hlow : 0x2000 ≤ (m + n).toNat)
    (hbelow : ∀ l ∈ anon ++ [z], (m + n).toNat ≤ l.start.toNat) :
    ∃ k, parseLoop wd (anon ++ z :: post) m n = .done (m, k) ∧
      (m + k).toNat = (m + n).toNat + regionBytes anon -
        (if anon ≠ [] ∧ z.isLibc = true then 0x3000 else 0) ∧
      (m + n).toNat + regionBytes anon ≤ z.start.toNat := by
  induction anon generalizing n with
  | nil =>
      refine ⟨n, parseLoop_ends hz post m n, by simp, ?_⟩
      simpa using hbelow z (by simp)
  | cons l anon ih =>
      obtain ⟨hinode, hpath⟩ := hanon l List.mem_cons_self
      obtain ⟨hfirst, hsorted⟩ := List.pairwise_cons.mp hsorted
      have hl := hpages l List.mem_cons_self
      have hb := hbelow l List.mem_cons_self
      have hgo : ¬ Ends wd l := by
        simp [Ends, MapLine.bracketed, hpath, hinode]
      have hge : 0x3000 ≤ l.stop.toNat := by omega
      rw [List.cons_append, parseLoop_goes hgo, if_neg hm]
      cases anon with
      | nil =>
          -- the last one: the line behind it decides
          obtain ⟨stop, hcount, hstop⟩ := countedStop_anonymous hinode hge z post
          have hzl : l.stop.toNat ≤ z.start.toNat := hfirst z (by simp)
          have hleft : (if z.isLibc = true then 0x3000 else 0) ≤ 0x3000 := by
            split <;> omega
          rw [List.nil_append, hcount]
          refine ⟨n + (stop - l.start), parseLoop_ends hz post m _, ?_, ?_⟩
          · rw [counted_end stop rfl hb (by omega), hstop]
            simp only [regionBytes_cons, regionBytes_nil, ne_eq, reduceCtorEq, not_false_eq_true,
              true_and]
            omega
          · simp only [regionBytes_cons, regionBytes_nil]
            omega
      | cons l' anon =>
          have hplain : ¬ l'.isLibc = true := by
            unfold MapLine.isLibc
            rw [(hanon l' (by simp)).2]
            decide
          obtain ⟨stop, hcount, hstop⟩ := countedStop_anonymous hinode hge l' (anon ++ z :: post)
          rw [if_neg hplain, Nat.sub_zero] at hstop
          have hend := counted_end stop rfl hb (by omega)
          obtain ⟨k, hk, hval, hin⟩ := ih
            (fun x hx => hanon x (List.mem_cons_of_mem l hx)) hsorted
            (fun x hx => hpages x (List.mem_cons_of_mem l hx))
            (by rw [hend]; omega)
            (fun x hx => by
              have hx' : l.stop.toNat ≤ x.start.toNat := hfirst x hx
              rw [hend]
              omega)
          rw [List.cons_append, hcount]
          refine ⟨k, hk, ?_, ?_⟩
          · have hsame : (l :: l' :: anon ≠ [] ∧ z.isLibc = true) ↔
                (l' :: anon ≠ [] ∧ z.isLibc = true) := by simp
            rw [hval, hend, regionBytes_cons l, if_congr hsame rfl rfl]
            omega
          · rw [hend] at hin
            rw [regionBytes_cons l]
            omega

end Loop

section Ranges

variable {dir : String} {names : List String} {maps : List MapLine} {name : String}

theorem modulePath_plain (h : dir.toList.head? = some '/') (name : String) :
    modulePath dir name ≠ "" ∧ (modulePath dir name).toList.head? = some '/' := by
  have hhead : (modulePath dir name).toList.head? = some '/' := by
    unfold modulePath
    simp only [String.toList_append, List.append_assoc, List.head?_append, h, Option.some_or]
  refine ⟨fun hempty => ?_, hhead⟩
  rw [hempty] at hhead
  cases hhead

/-- Own lines are backed by a file, and none of them ends the loop. -/
theorem ModuleListing.own (h : ModuleListing dir names maps) {l : MapLine} (hl : l ∈ maps)
    (hpath : l.path = modulePath dir name) :
    ¬ Ends (modulePath dir name) l ∧ l.inode ≠ 0 ∧ l.bracketed = false := by
  obtain ⟨hne, hhead⟩ := modulePath_plain h.absolute name
  have hplain : l.bracketed = false := by
    simp [MapLine.bracketed, hpath, hhead]
  refine ⟨?_, fun hinode => ?_, hplain⟩
  · simp [Ends, hplain, hpath]
  · rcases h.unnamed l hl hinode with hempty | hbr
    · exact hne (hpath.symm.trans hempty)
    · rw [hplain] at hbr
      cases hbr

/-- A listing around the lines `f :: own` of a module and the anonymous lines behind
them, up to the line `z` that ends the loop. -/
structure Parts (wd : String) (maps pre : List MapLine) (f : MapLine) (own : List MapLine)
    (z : MapLine) (post : List MapLine) : Prop where
  lines : ownLines wd maps = f :: own
  behind : lineBehind wd maps = some z
  drop : maps.dropWhile (·.path ≠ wd) = f :: (own ++ (anonLines wd maps ++ z :: post))
  split : maps = pre ++ f :: (own ++ (anonLines wd maps ++ z :: post))
  ownPath : ∀ l ∈ f :: own, l.path = wd
  prePath : ∀ l ∈ pre, l.path ≠ wd
  postPath : ∀ l ∈ z :: post, l.path ≠ wd
  ends : Ends wd z

theorem lines_split (wd : String) (maps : List MapLine) :
    maps = maps.takeWhile (·.path ≠ wd) ++ (ownLines wd maps ++ restLines wd maps) := by
  unfold ownLines restLines
  rw [List.takeWhile_append_dropWhile, List.takeWhile_append_dropWhile]

theorem restLines_split (wd : String) (maps : List MapLine) :
    restLines wd maps = anonLines wd maps ++ (restLines wd maps).dropWhile MapLine.anonymous := by
  unfold anonLines
  rw [List.takeWhile_append_dropWhile]

theorem ownLines_path {wd : String} : ∀ l ∈ ownLines wd maps, l.path = wd := by
  intro l hl
  simpa using List.mem_takeWhile_imp hl

theorem takeWhile_path {wd : String} : ∀ l ∈ maps.takeWhile (·.path ≠ wd), l.path ≠ wd := by
  intro l hl
  simpa using List.mem_takeWhile_imp hl

/-- A listed module has a line of its own. -/
theorem ModuleListing.own_cons (h : ModuleListing dir names maps) (hname : name ∈ names)
    (hlisted : IsListed dir maps name) :
    ∃ f own, ownLines (modulePath dir name) maps = f :: own := by
  cases hnil : ownLines (modulePath dir name) maps with
  | cons f own => exact ⟨f, own, rfl⟩
  | nil =>
      obtain ⟨l, hl, hpath⟩ := hlisted
      rw [lines_split (modulePath dir name) maps, hnil, List.nil_append] at hl
      rcases List.mem_append.mp hl with hl | hl
      · exact absurd hpath (takeWhile_path l hl)
      · exact absurd hpath (h.consecutive name hname l hl)

/-- There is a line behind the anonymous ones, since the last line is bracketed. -/
theorem ModuleListing.behind_cons (h : ModuleListing dir names maps) {f : MapLine}
    {own : List MapLine} (hcons : ownLines (modulePath dir name) maps = f :: own) :
    ∃ z post, (restLines (modulePath dir name) maps).dropWhile MapLine.anonymous = z :: post := by
  cases hnil : (restLines (modulePath dir name) maps).dropWhile MapLine.anonymous with
  | cons z post => exact ⟨z, post, rfl⟩
  | nil =>
      obtain ⟨l, hlast, hbr⟩ := h.closed
      have hmem : l ∈ maps := List.mem_of_getLast? hlast
      have hanon := restLines_split (modulePath dir name) maps
      rw [hnil, List.append_nil] at hanon
      have hbehind : l ∈ f :: own ++ anonLines (modulePath dir name) maps := by
        rw [lines_split (modulePath dir name) maps, hcons, hanon, List.getLast?_append,
          List.cons_append, List.getLast?_cons, Option.some_or] at hlast
        rw [← Option.some.inj hlast, List.cons_append]
        exact List.mem_of_getLast? List.getLast?_cons
      rcases List.mem_append.mp hbehind with hl | hl
      · obtain ⟨-, -, hplain⟩ := h.own hmem (ownLines_path l (hcons ▸ hl))
        rw [hbr] at hplain
        cases hplain
      · have hl' := List.mem_takeWhile_imp hl
        simp [MapLine.anonymous, hbr] at hl'

theorem ModuleListing.parts (h : ModuleListing dir names maps) (hname : name ∈ names)
    (hlisted : IsListed dir maps name) :
    ∃ pre f own z post, Parts (modulePath dir name) maps pre f own z post := by
  obtain ⟨f, own, hcons⟩ := h.own_cons hname hlisted
  obtain ⟨z, post, hz⟩ := h.behind_cons hcons
  generalize hwd : modulePath dir name = wd at *
  have hanon := restLines_split wd maps
  have hrest : ∀ l ∈ z :: post, l.path ≠ wd := by
    intro l hl
    apply hwd ▸ h.consecutive name hname l
    rw [hanon, hz]
    exact List.mem_append_right _ hl
  have hdrop : maps.dropWhile (·.path ≠ wd) =
      f :: (own ++ (anonLines wd maps ++ z :: post)) := by
    rw [← hz, ← hanon, ← List.cons_append, ← hcons]
    unfold ownLines restLines
    rw [List.takeWhile_append_dropWhile]
  refine ⟨maps.takeWhile (·.path ≠ wd), f, own, z, post, hcons, ?_, hdrop, ?_,
    hcons ▸ ownLines_path, takeWhile_path, hrest, ?_⟩
  · unfold lineBehind
    rw [hz]
    rfl
  · rw [← hdrop, List.takeWhile_append_dropWhile]
  · have hno : z.anonymous = false := by
      have hhead := List.head?_dropWhile_not MapLine.anonymous (restLines wd maps)
      rw [hz] at hhead
      simpa using hhead
    by_cases hbr : z.bracketed = true
    · exact Or.inl hbr
    · refine Or.inr ⟨hrest z List.mem_cons_self, fun hinode => ?_⟩
      simp [MapLine.anonymous, hinode, hbr] at hno

/-- The first and the last of sorted lines. -/
theorem sorted_bounds {f : MapLine} {own : List MapLine}
    (hsorted : (f :: own).Pairwise fun a b => a.stop ≤ b.start)
    (hne : ∀ l ∈ f :: own, l.start < l.stop) : ∀ l ∈ f :: own,
      f.start.toNat ≤ l.start.toNat ∧
        l.stop.toNat ≤ ((f :: own).getLast (List.cons_ne_nil _ _)).stop.toNat := by
  intro l hl
  constructor
  · rcases List.mem_cons.mp hl with rfl | hl'
    · exact le_refl _
    · have hf : f.start.toNat < f.stop.toNat := hne f List.mem_cons_self
      have hle : f.stop.toNat ≤ l.start.toNat := (List.pairwise_cons.mp hsorted).1 l hl'
      omega
  · have hlast := hne _ (List.getLast_mem (List.cons_ne_nil f own))
    rw [← List.dropLast_append_getLast (List.cons_ne_nil f own)] at hl hsorted
    generalize (f :: own).getLast (List.cons_ne_nil f own) = last at *
    rcases List.mem_append.mp hl with hl | hl
    · have hle : l.stop.toNat ≤ last.start.toNat :=
        (List.pairwise_append.mp hsorted).2.2 l hl last (by simp)
      have hlast : last.start.toNat < last.stop.toNat := hlast
      omega
    · rw [List.mem_singleton.mp hl]

/-- What the loop makes of a module that does not start at address zero. -/
theorem parseLoop_module {wd : String} {f z : MapLine} {own anon : List MapLine}
    (post : List MapLine) (hz : Ends wd z)
    (hown : ∀ l ∈ f :: own, ¬ Ends wd l ∧ l.inode ≠ 0)
    (hanon : ∀ l ∈ anon, l.inode = 0 ∧ l.path = "")
    (hsorted : (f :: own ++ (anon ++ [z])).Pairwise fun a b => a.stop ≤ b.start)
    (hpages : ∀ l ∈ f :: own ++ anon, l.start.toNat + 0x1000 ≤ l.stop.toNat)
    (hchain : (f :: own).IsChain fun a b => a.stop = b.start) (hf : 0x1000 ≤ f.start.toNat) :
    ∃ k, parseLoop wd (f :: (own ++ (anon ++ z :: post))) 0 0 = .done (f.start, k) ∧
      (f.start + k).toNat = ((f :: own).getLast (List.cons_ne_nil _ _)).stop.toNat +
        regionBytes anon - (if anon ≠ [] ∧ z.isLibc = true then 0x3000 else 0) ∧
      ((f :: own).getLast (List.cons_ne_nil _ _)).stop.toNat + regionBytes anon ≤
        z.start.toNat := by
  have hne : f.start ≠ 0 := by
    intro h
    rw [h] at hf
    exact absurd hf (by decide)
  obtain ⟨hgo, hinode⟩ := hown f List.mem_cons_self
  have hcount : countedStop f (own ++ (anon ++ z :: post)) = .done f.stop := if_neg hinode
  have hfirst : f.start + (0 + (f.stop - f.start)) = f.stop := by
    rw [UInt64.zero_add, UInt64.add_comm, UInt64.sub_add_cancel]
  obtain ⟨n, hn, hend⟩ := parseLoop_own hne
    (fun l hl => hown l (List.mem_cons_of_mem f hl)) hchain (anon ++ z :: post) hfirst
  obtain ⟨hs₁, hs₂, hs₃⟩ := List.pairwise_append.mp hsorted
  have hlast := (sorted_bounds hs₁ (fun l hl => by
    have := hpages l (List.mem_append_left _ hl)
    rw [UInt64.lt_iff_toNat_lt]
    omega) f List.mem_cons_self).2
  have hfp := hpages f (List.mem_append_left _ List.mem_cons_self)
  have hend' := congrArg UInt64.toNat hend
  obtain ⟨k, hk, hval, hin⟩ := parseLoop_anon hne hz post hanon hs₂
    (fun l hl => hpages l (List.mem_append_right _ hl)) (n := n) (by omega)
    (fun l hl => by
      rw [hend']
      exact hs₃ _ (List.getLast_mem _) l hl)
  refine ⟨k, ?_, ?_, ?_⟩
  · rw [parseLoop_goes hgo, hcount]
    show parseLoop wd _ (if (0 : UInt64) = 0 then f.start else 0) _ = _
    rw [if_pos rfl, hn, hk]
  · rw [hval, hend']
  · rw [← hend']
    exact hin

/-- At address zero the start is taken from the second line, if there is one. -/
theorem parseLoop_zero {wd : String} {f : MapLine} {rest : List MapLine} (hf : f.start = 0)
    (hown : ¬ Ends wd f ∧ f.inode ≠ 0) :
    parseLoop wd (f :: rest) 0 0 = parseLoop wd rest 0 f.stop := by
  rw [parseLoop_goes hown.1, show countedStop f rest = .done f.stop from if_neg hown.2]
  show parseLoop wd rest (if (0 : UInt64) = 0 then f.start else 0) (0 + (f.stop - f.start)) = _
  rw [if_pos rfl, hf, UInt64.sub_zero, UInt64.zero_add]

theorem parseLoop_zero_start {wd : String} {l : MapLine} {rest : List MapLine} {n s k : UInt64}
    (hl : ¬ Ends wd l) (hstart : l.start ≠ 0)
    (h : parseLoop wd (l :: rest) 0 n = .done (s, k)) : s ≠ 0 := by
  rw [parseLoop_goes hl, if_pos rfl] at h
  obtain ⟨stop, -, h⟩ := Outcome.bind_eq_done.mp h
  rw [parseLoop_start hstart h]
  exact hstart

theorem inBlock_toNat {start size a : UInt64} : inBlock start size a = true ↔
    start.toNat ≤ a.toNat ∧ a.toNat < (start + size).toNat := by
  simp [inBlock, UInt64.le_iff_toNat_le, UInt64.lt_iff_toNat_lt]

/-- A range that holds all lines of its module. -/
def CoversOwn (wd : String) (maps : List MapLine) (e : ProcMap) : Prop :=
  ∀ l ∈ maps, l.path = wd → ∀ a, l.start ≤ a → a < l.stop → inBlock e.start e.size a = true

theorem ModuleListing.page (h : ModuleListing dir names maps) {l : MapLine} (hl : l ∈ maps) :
    l.start.toNat + 0x1000 ≤ l.stop.toNat := by
  have hlt : l.start.toNat < l.stop.toNat := h.nonempty l hl
  obtain ⟨hs, he⟩ := h.aligned l hl
  omega

theorem parseProc_listed {e : ProcMap} (hroom : maps.length ≤ 1024) {l : MapLine}
    {ls : List MapLine} (hdrop : maps.dropWhile (·.path ≠ modulePath dir e.name) = l :: ls) :
    parseProc dir maps e = (parseLoop (modulePath dir e.name) (l :: ls) 0 0).bind fun r =>
      .done { e with start := r.1, size := r.2 } := by
  unfold parseProc
  rw [if_neg (by omega), hdrop]

section Parts

variable {pre own post : List MapLine} {f z : MapLine}

theorem Parts.mem {wd : String} (hp : Parts wd maps pre f own z post) :
    ∀ l ∈ f :: own ++ anonLines wd maps, l ∈ maps := by
  intro l hl
  rw [hp.split]
  apply List.mem_append_right
  rw [← List.cons_append, ← List.append_assoc]
  exact List.mem_append_left _ hl

theorem Parts.kept (hp : Parts (modulePath dir name) maps pre f own z post)
    (h : ModuleListing dir names maps) :
    ∀ l ∈ f :: own, ¬ Ends (modulePath dir name) l ∧ l.inode ≠ 0 := by
  intro l hl
  obtain ⟨hgo, hinode, -⟩ := h.own (hp.mem l (List.mem_append_left _ hl)) (hp.ownPath l hl)
  exact ⟨hgo, hinode⟩

theorem Parts.anon {wd : String} (hp : Parts wd maps pre f own z post)
    (h : ModuleListing dir names maps) : ∀ l ∈ anonLines wd maps, l.inode = 0 ∧ l.path = "" := by
  intro l hl
  have hl' := List.mem_takeWhile_imp hl
  simp only [MapLine.anonymous, Bool.and_eq_true, decide_eq_true_eq, Bool.not_eq_true'] at hl'
  have hmem := hp.mem l (List.mem_append_right _ hl)
  refine ⟨hl'.1, (h.unnamed l hmem hl'.1).resolve_right ?_⟩
  rw [hl'.2]
  simp

/-- The lines of a module and those behind them are sorted. -/
theorem Parts.sorted {wd : String} (hp : Parts wd maps pre f own z post)
    (h : ModuleListing dir names maps) :
    (f :: (own ++ (anonLines wd maps ++ z :: post))).Pairwise fun a b => a.stop ≤ b.start := by
  have hwhole := h.sorted
  rw [hp.split] at hwhole
  exact (List.pairwise_append.mp hwhole).2.1

/-- A range from the first own line to somewhere between the last one and the line
behind the anonymous ones is a good one. -/
theorem Parts.good_range {e : ProcMap} (hp : Parts (modulePath dir e.name) maps pre f own z post)
    (h : ModuleListing dir names maps) (hstart : e.start = f.start)
    (hlo : ((f :: own).getLast (List.cons_ne_nil _ _)).stop.toNat ≤ (e.start + e.size).toNat)
    (hhi : (e.start + e.size).toNat ≤ z.start.toNat) :
    Placed dir maps e ∧ CoversOwn (modulePath dir e.name) maps e := by
  have hwhole := h.sorted
  rw [hp.split] at hwhole
  obtain ⟨-, htail, hfront⟩ := List.pairwise_append.mp hwhole
  rw [← List.cons_append] at htail
  obtain ⟨hs₁, hs₂, -⟩ := List.pairwise_append.mp htail
  have hz := (List.pairwise_cons.mp (List.pairwise_append.mp hs₂).2.1).1
  have hcases : ∀ l ∈ maps, l ∈ pre ∨ l ∈ f :: own ∨
      l ∈ anonLines (modulePath dir e.name) maps ∨ l ∈ z :: post := by
    intro l hl
    rw [hp.split] at hl
    simpa [or_assoc] using hl
  refine ⟨⟨⟨f, (dropWhile_path hp.drop).1, hstart⟩, ?_⟩, ?_⟩
  · intro l hl hinode hpath hafter
    rcases hcases l hl with hl' | hl' | hl' | hl'
    · -- in front of the module
      have hlt : l.start.toNat < l.stop.toNat := h.nonempty l hl
      have hle : l.stop.toNat ≤ f.start.toNat := hfront l hl' f List.mem_cons_self
      have hafter : e.start.toNat ≤ l.start.toNat := hafter
      rw [hstart] at hafter
      omega
    · exact absurd (hp.ownPath l hl') hpath
    · exact absurd (hp.anon h l hl').1 hinode
    · refine hhi.trans ?_
      rcases List.mem_cons.mp hl' with rfl | hl'
      · exact le_refl _
      · have hlt : z.start.toNat < z.stop.toNat := h.nonempty z (by rw [hp.split]; simp)
        have hle : z.stop.toNat ≤ l.start.toNat := hz l hl'
        omega
  · intro l hl hpath a hla hal
    have hl' : l ∈ f :: own := by
      rcases hcases l hl with hl' | hl' | hl' | hl'
      · exact absurd hpath (hp.prePath l hl')
      · exact hl'
      · have hempty := (hp.anon h l hl').2
        exact absurd (hpath.symm.trans hempty) (modulePath_plain h.absolute e.name).1
      · exact absurd hpath (hp.postPath l hl')
    have hne : ∀ x ∈ f :: own, x.start < x.stop := by
      intro x hx
      apply h.nonempty
      rw [hp.split]
      exact List.mem_append_right _ (List.mem_append_left _ hx)
    obtain ⟨hfl, hll⟩ := sorted_bounds hs₁ hne l hl'
    have hla : l.start.toNat ≤ a.toNat := hla
    have hal : a.toNat < l.stop.toNat := hal
    rw [inBlock_toNat, hstart]
    rw [hstart] at hlo
    omega

/-- A range that covers the last own line ends behind it. -/
theorem CoversOwn.last {wd : String} {e : ProcMap} (hc : CoversOwn wd maps e) {l : MapLine}
    (hl : l ∈ maps) (hpath : l.path = wd) (hne : l.start < l.stop) :
    l.stop.toNat ≤ (e.start + e.size).toNat := by
  have hlt : l.start.toNat < l.stop.toNat := hne
  have hsub : (l.stop - 1).toNat = l.stop.toNat - 1 := by
    apply UInt64.toNat_sub_of_le
    rw [UInt64.le_iff_toNat_le, show (1 : UInt64).toNat = 1 from rfl]
    omega
  have hin := inBlock_toNat.mp (hc l hl hpath (l.stop - 1)
    (by rw [UInt64.le_iff_toNat_le, hsub]; omega)
    (by rw [UInt64.lt_iff_toNat_lt, hsub]; omega))
  omega

/-- A module at address zero gets a good range if it has a single line; another
line would set the start again. -/
theorem Parts.range_zero {e : ProcMap} (hp : Parts (modulePath dir e.name) maps pre f own z post)
    (h : ModuleListing dir names maps) (hzero : f.start = 0) :
    (Spared (modulePath dir e.name) maps → ∃ e', parseProc dir maps e = .done e' ∧
      e'.name = e.name ∧ Placed dir maps e' ∧ CoversOwn (modulePath dir e.name) maps e') ∧
    ∀ e', parseProc dir maps e = .done e' → CoversOwn (modulePath dir e.name) maps e' →
      Spared (modulePath dir e.name) maps := by
  have hparse := parseProc_listed h.room hp.drop
  have htail := hp.sorted h
  have hkept := hp.kept h f List.mem_cons_self
  constructor
  · intro hs
    have hlen := hs.high f (by rw [hp.lines]; rfl) hzero
    rw [hp.lines, List.length_cons] at hlen
    obtain rfl : own = [] := List.eq_nil_of_length_eq_zero (by omega)
    have hnil : anonLines (modulePath dir e.name) maps = [] :=
      List.eq_nil_of_length_eq_zero (by omega)
    have hloop : parseLoop (modulePath dir e.name)
        (f :: ([] ++ (anonLines (modulePath dir e.name) maps ++ z :: post))) 0 0 =
          .done (0, f.stop) := by
      rw [parseLoop_zero hzero hkept, hnil, List.nil_append, List.nil_append]
      exact parseLoop_ends hp.ends post 0 f.stop
    refine ⟨{ e with start := 0, size := f.stop }, by rw [hparse, hloop]; rfl, rfl, ?_⟩
    refine Parts.good_range (e := { e with start := 0, size := f.stop }) hp h hzero.symm ?_ ?_
    · show f.stop.toNat ≤ (0 + f.stop).toNat
      rw [UInt64.zero_add]
    · show (0 + f.stop).toNat ≤ z.start.toNat
      rw [UInt64.zero_add]
      exact (List.pairwise_cons.mp htail).1 z (by simp)
  · intro e' he' hc
    rw [hparse, parseLoop_zero hzero hkept] at he'
    obtain ⟨⟨s, k⟩, hloop, he'⟩ := Outcome.bind_eq_done.mp he'
    cases he'
    have hf := hp.mem f (List.mem_append_left _ List.mem_cons_self)
    have hlt : f.start.toNat < f.stop.toNat := h.nonempty f hf
    -- address zero is covered, so no second line has set the start
    have hs : s = 0 := by
      have hin := inBlock_toNat.mp (hc f hf (hp.ownPath f List.mem_cons_self) f.start
        (UInt64.le_refl _) hlt)
      rw [hzero] at hin
      exact UInt64.toNat_inj.mp (Nat.le_zero.mp hin.1)
    rw [← List.append_assoc] at hloop htail
    cases hcount : own ++ anonLines (modulePath dir e.name) maps with
    | nil =>
        obtain ⟨rfl, hnil⟩ := List.append_eq_nil_iff.mp hcount
        refine ⟨fun _ _ _ hne => absurd hnil hne, fun _ _ _ => ?_⟩
        rw [hp.lines, hnil]
        rfl
    | cons l ls =>
        have hl : l ∈ own ++ anonLines (modulePath dir e.name) maps := by
          rw [hcount]
          exact List.mem_cons_self
        have hgo : ¬ Ends (modulePath dir e.name) l := by
          rcases List.mem_append.mp hl with hl | hl
          · exact (hp.kept h l (List.mem_cons_of_mem f hl)).1
          · simp [Ends, MapLine.bracketed, hp.anon h l hl]
        rw [hcount, List.cons_append] at hloop htail
        have hpos : l.start ≠ 0 := by
          intro hl0
          have hle : f.stop.toNat ≤ l.start.toNat :=
            (List.pairwise_cons.mp htail).1 l List.mem_cons_self
          rw [hl0, show (0 : UInt64).toNat = 0 from rfl] at hle
          omega
        exact absurd hs (parseLoop_zero_start hgo hpos hloop)

/-- The loop on a module above address zero: what is behind the last own line is
counted, less the three pages for the C library. -/
theorem Parts.loop (hp : Parts (modulePath dir name) maps pre f own z post)
    (h : ModuleListing dir names maps) (hname : name ∈ names) (hzero : f.start ≠ 0) :
    ∃ k, parseLoop (modulePath dir name)
        (f :: (own ++ (anonLines (modulePath dir name) maps ++ z :: post))) 0 0 =
        .done (f.start, k) ∧
      (f.start + k).toNat = ((f :: own).getLast (List.cons_ne_nil _ _)).stop.toNat +
        regionBytes (anonLines (modulePath dir name) maps) -
        (if anonLines (modulePath dir name) maps ≠ [] ∧ z.isLibc = true then 0x3000 else 0) ∧
      ((f :: own).getLast (List.cons_ne_nil _ _)).stop.toNat +
        regionBytes (anonLines (modulePath dir name) maps) ≤ z.start.toNat := by
  have hhigh : 0x1000 ≤ f.start.toNat := by
    obtain ⟨hdvd, -⟩ := h.aligned f (hp.mem f (List.mem_append_left _ List.mem_cons_self))
    have hne : f.start.toNat ≠ 0 := fun h0 => hzero (UInt64.toNat_inj.mp h0)
    omega
  have hsorted : (f :: own ++ (anonLines (modulePath dir name) maps ++ [z])).Pairwise
      fun a b => a.stop ≤ b.start := by
    refine (hp.sorted h).sublist ?_
    rw [← List.cons_append]
    exact (List.Sublist.refl _).append ((List.Sublist.refl _).append (by simp))
  have hchain := h.contiguous name hname
  rw [hp.lines] at hchain
  exact parseLoop_module post hp.ends (hp.kept h) (hp.anon h) hsorted
    (fun l hl => h.page (hp.mem l hl)) hchain hhigh

/-- A module above address zero gets a good range if three pages can be left to the
C library behind it. -/
theorem Parts.range_high {e : ProcMap} (hp : Parts (modulePath dir e.name) maps pre f own z post)
    (h : ModuleListing dir names maps) (hname : e.name ∈ names) (hzero : f.start ≠ 0) :
    (Spared (modulePath dir e.name) maps → ∃ e', parseProc dir maps e = .done e' ∧
      e'.name = e.name ∧ Placed dir maps e' ∧ CoversOwn (modulePath dir e.name) maps e') ∧
    ∀ e', parseProc dir maps e = .done e' → CoversOwn (modulePath dir e.name) maps e' →
      Spared (modulePath dir e.name) maps := by
  obtain ⟨k, hloop, hval, hin⟩ := hp.loop h hname hzero
  have hparse := parseProc_listed h.room hp.drop
  rw [hloop] at hparse
  constructor
  · intro hs
    refine ⟨{ e with start := f.start, size := k }, hparse, rfl, ?_⟩
    have hleft : (if anonLines (modulePath dir e.name) maps ≠ [] ∧ z.isLibc = true then 0x3000
        else 0) ≤ regionBytes (anonLines (modulePath dir e.name) maps) := by
      split
      · rename_i hlibc
        exact hs.libc z hp.behind hlibc.2 hlibc.1
      · exact Nat.zero_le _
    refine Parts.good_range (e := { e with start := f.start, size := k }) hp h rfl ?_ ?_
    · show _ ≤ (f.start + k).toNat
      rw [hval]
      omega
    · show (f.start + k).toNat ≤ _
      rw [hval]
      omega
  · intro e' he' hc
    rw [hparse] at he'
    cases he'
    have hlast := List.getLast_mem (List.cons_ne_nil f own)
    have hmem := hp.mem _ (List.mem_append_left _ hlast)
    have hpos : 0 < ((f :: own).getLast (List.cons_ne_nil f own)).stop.toNat :=
      Nat.lt_of_le_of_lt (Nat.zero_le _) (h.nonempty _ hmem)
    have hcover : _ ≤ (f.start + k).toNat :=
      hc.last hmem (hp.ownPath _ hlast) (h.nonempty _ hmem)
    refine ⟨?_, ?_⟩
    · intro z' hz' hlibc hne
      rw [hp.behind] at hz'
      cases hz'
      rw [hval, if_pos ⟨hne, hlibc⟩] at hcover
      omega
    · intro l hl hl0
      rw [hp.lines] at hl
      cases hl
      exact absurd hl0 hzero

end Parts

/-- Modules get a good range exactly when they are spared. -/
theorem ModuleListing.range (h : ModuleListing dir names maps) {e : ProcMap}
    (hname : e.name ∈ names) (hlisted : IsListed dir maps e.name) :
    (Spared (modulePath dir e.name) maps → ∃ e', parseProc dir maps e = .done e' ∧
      e'.name = e.name ∧ Placed dir maps e' ∧ CoversOwn (modulePath dir e.name) maps e') ∧
    ∀ e', parseProc dir maps e = .done e' → CoversOwn (modulePath dir e.name) maps e' →
      Spared (modulePath dir e.name) maps := by
  obtain ⟨pre, f, own, z, post, hp⟩ := h.parts hname hlisted
  by_cases hzero : f.start = 0
  · exact hp.range_zero h hzero
  · exact hp.range_high h hname hzero

theorem placed_apart (h : ModuleListing dir names maps) {e f : ProcMap} (hne : e.name ≠ f.name)
    (he : Placed dir maps e) (hf : Placed dir maps f) (a : UInt64) :
    ¬ (inBlock e.start e.size a = true ∧ inBlock f.start f.size a = true) := by
  rintro ⟨hea, hfa⟩
  rw [inBlock_toNat] at hea hfa
  obtain ⟨l, hl, hel⟩ := he.first
  obtain ⟨l', hl', hfl⟩ := hf.first
  have hlpath : l.path = modulePath dir e.name := by simpa using List.find?_some hl
  have hlpath' : l'.path = modulePath dir f.name := by simpa using List.find?_some hl'
  have hmem := List.mem_of_find?_eq_some hl
  have hmem' := List.mem_of_find?_eq_some hl'
  have hpaths : modulePath dir e.name ≠ modulePath dir f.name :=
    fun heq => hne (modulePath_injective dir heq)
  rcases Nat.le_total e.start.toNat f.start.toNat with hle | hle
  · have hend := he.avoids l' hmem' (h.own hmem' hlpath').2.1
      (fun heq => hpaths (heq.symm.trans hlpath')) (by rw [← hfl]; exact hle)
    rw [← hfl] at hend
    omega
  · have hend := hf.avoids l hmem (h.own hmem hlpath).2.1
      (fun heq => hpaths (hlpath.symm.trans heq)) (by rw [← hel]; exact hle)
    rw [← hel] at hend
    omega

/-- **Module ranges, exactly.** `parse_proc` gives every listed module a range
that holds its lines, apart from those of the others, if, and only if, the
anonymous regions between a module and the C library have the three pages that
are taken from them, and no module with a further line starts at address
zero. -/
theorem module_ranges_iff (h : ModuleListing dir names maps) :
    RangesRight dir names maps ↔
      ∀ name ∈ names, IsListed dir maps name → Spared (modulePath dir name) maps := by
  constructor
  · intro hr name hname hlisted
    let e : ProcMap := { name := name }
    obtain ⟨e', he', hc⟩ := hr.covers name hname hlisted e rfl
    exact (h.range (e := e) hname hlisted).2 e' he' hc
  · intro hs
    have hgood : ∀ e : ProcMap, e.name ∈ names → IsListed dir maps e.name →
        ∃ e', parseProc dir maps e = .done e' ∧ e'.name = e.name ∧ Placed dir maps e' ∧
          CoversOwn (modulePath dir e.name) maps e' :=
      fun e hname hlisted => (h.range hname hlisted).1 (hs e.name hname hlisted)
    constructor
    · rintro name hname hlisted e rfl
      obtain ⟨e', he', -, -, hc⟩ := hgood e hname hlisted
      exact ⟨e', he', hc⟩
    · rintro m hm n hn hne hlm hln e e' f f' rfl rfl he hf a
      obtain ⟨e₁, he₁, hname₁, hplaced₁, -⟩ := hgood e hm hlm
      obtain ⟨f₁, hf₁, hname₂, hplaced₂, -⟩ := hgood f hn hln
      rw [he] at he₁
      rw [hf] at hf₁
      cases he₁
      cases hf₁
      exact placed_apart h (by rw [hname₁, hname₂]; exact hne) hplaced₁ hplaced₂ a

end Ranges

/-- vfscore, ramfs with its data, one page of anonymous memory or more, and the C
library behind it. -/
def ramfsMaps (anon : UInt64) : List MapLine :=
  [{ start := 0x7f0000008000, stop := 0x7f0000010000, inode := 4, path := "/c/libvfscore.so" },
    { start := 0x7f0000010000, stop := 0x7f0000013000, inode := 5, path := "/c/libramfs.so" },
    { start := 0x7f0000013000, stop := 0x7f0000013000 + anon, inode := 0, path := "" },
    { start := 0x7f0000040000, stop := 0x7f0000060000, inode := 7,
      path := "/lib/libc-2.31.so" },
    { start := 0xffffffffff600000, stop := 0xffffffffff601000, inode := 0,
      path := "[vsyscall]" }]

def ramfsNames : List String := ["libvfscore.so", "libramfs.so"]

/-- The paths of the two modules. -/
theorem ramfsNames_path {name : String} (h : name ∈ ramfsNames) :
    modulePath "/c" name = "/c/libvfscore.so" ∨ modulePath "/c" name = "/c/libramfs.so" := by
  rcases List.mem_pair.mp h with rfl | rfl
  · exact Or.inl (by decide +kernel)
  · exact Or.inr (by decide +kernel)

theorem ramfsMaps_listing {anon : UInt64} (h : anon = 0x1000 ∨ anon = 0x5000) :
    ModuleListing "/c" ramfsNames (ramfsMaps anon) := by
  rcases h with rfl | rfl
  all_goals
    refine ⟨by decide, by decide, by decide, by decide, by decide, ⟨_, rfl, by decide⟩,
      by decide, ?_, ?_⟩
    · intro name hn
      rcases ramfsNames_path hn with hpath | hpath
      · rw [hpath]
        decide
      · rw [hpath]
        decide
    · intro name hn
      rcases ramfsNames_path hn with hpath | hpath
      · rw [hpath]
        decide
      · rw [hpath]
        decide

/-- Five anonymous pages in front of the C library: both ranges are right, and
they have no address in common. -/
theorem ramfs_range_right : RangesRight "/c" ramfsNames (ramfsMaps 0x5000) := by
  refine (module_ranges_iff (ramfsMaps_listing (Or.inr rfl))).mpr ?_
  intro name hname _
  rcases ramfsNames_path hname with hpath | hpath
  · rw [hpath]
    exact ⟨by decide, by decide⟩
  · rw [hpath]
    exact ⟨by decide, by decide⟩

/-- With one page only, the size of ramfs becomes one page: two of the pages of
its file are not attributed to it. -/
theorem ramfs_pages_lost :
    ModuleListing "/c" ramfsNames (ramfsMaps 0x1000) ∧
      parseProc "/c" (ramfsMaps 0x1000) { name := "libramfs.so" } =
        .done { name := "libramfs.so", start := 0x7f0000010000, size := 0x1000 } ∧
      ¬ RangesRight "/c" ramfsNames (ramfsMaps 0x1000) := by
  have hparse : parseProc "/c" (ramfsMaps 0x1000) { name := "libramfs.so" } =
      .done { name := "libramfs.so", start := 0x7f0000010000, size := 0x1000 } := by
    decide +kernel
  refine ⟨ramfsMaps_listing (Or.inl rfl), hparse, fun h => ?_⟩
  obtain ⟨e', he', hc⟩ := h.covers "libramfs.so" (by decide)
    ⟨_, List.mem_cons_of_mem _ List.mem_cons_self, by decide +kernel⟩
    { name := "libramfs.so" } rfl
  rw [hparse] at he'
  cases he'
  have hin := hc _ (List.mem_cons_of_mem _ List.mem_cons_self) (by decide +kernel)
    0x7f0000011000 (by decide) (by decide)
  exact absurd hin (by decide)

end CubicleOS
