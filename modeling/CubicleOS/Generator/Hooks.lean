import CubicleOS.Foundation.Text
import CubicleOS.Calls.Wraps

/-!
# The generator

`fig.py` reads the export lists of the libraries and the LLVM IR of the whole
system, and writes the hooks and the table `hooks[]` by which the loader finds
them. A type that it does not know, or a line it cannot take apart, ends the
generator before it has printed anything; such a run is `none`.
-/

namespace CubicleOS

open Foundation

/-! ## §1  Types and parameters -/

/-- The C types that `get_type` writes. -/
inductive CType where
  | uint8 | uint16 | uint32 | uint64
deriving DecidableEq, Repr

/-- `get_type`. -/
def getType (arg : List Char) : Option CType :=
  if contains "*" arg then some .uint64
  else if contains "i8" arg then some .uint8
  else if contains "i16" arg then some .uint16
  else if contains "i32" arg then some .uint32
  else if contains "i64" arg then some .uint64
  else if contains "void" arg then some .uint64
  else none

/-- `0 if ''==ag else ag.count(',') + 1`. -/
def argCount (arg : List Char) : ℕ := if arg = [] then 0 else arg.count ',' + 1

/-- `conv_args1`: the types of the parameters. -/
def convArgs1 (arg : List Char) : Option (List CType) :=
  if arg = [] then some [] else (arg.splitOn ',').mapM getType

/-- `conv_args`: the parameters of the hook, each with the number in its
name. -/
def convArgs (arg : List Char) : Option (List (CType × ℕ)) :=
  (convArgs1 arg).map List.zipIdx

/-- `conv_args2`: the numbers in the names of the arguments passed on. -/
def convArgs2 (n : ℕ) : List ℕ := List.range n

/-! ## §2  One hook -/

/-- What `msg1` is formatted with. The hook's wraps and its shortcut depend on
`lib` and `name` only. -/
structure Wrap where
  lib : Modules
  name : String
  ftype : CType
  args : List (CType × ℕ)
  args1 : List CType
  args2 : List ℕ
  narg : ℕ
deriving DecidableEq, Repr

/-- The result type: `ll_line.split('@')[0].split('define')[1]`. -/
def resultText (line : List Char) : Option (List Char) :=
  (after "define".toList (before ['@'] line)).map (before "define".toList)

def makeWrap (lib : Modules) (name line : String) : Option Wrap :=
  (resultText line.toList).bind fun tp =>
    (inParens line.toList).bind fun ag =>
      (getType tp).bind fun ftype =>
        (convArgs ag).bind fun args =>
          (convArgs1 ag).bind fun args1 =>
            let narg := argCount ag
            some {
              lib := lib
              name := name
              ftype := ftype
              args := args
              args1 := args1
              args2 := convArgs2 narg
              narg := narg + 2 }

/-! ## §3  The loop over the libraries -/

/-- The directory of a library under `lib/`. -/
def libDir : Modules → String
  | .posixSysinfo => "posix-sysinfo"
  | .posixLibdl => "posix-libdl"
  | .d9pfs => "9pfs"
  | m => m.lib

/-- `liblist`, by the enumerators that it gives rise to. -/
def liblist : List Modules := Modules.all.tail

def skip : List String := ["nolibc", "ukdebug", "ukmmap", "uk9p"]

def skipped (m : Modules) : Bool :=
  skip.any fun x =>
    contains x ("../unikraft/lib/" ++ libDir m ++ "/exportsyms.uk").toList

/-- The names in an export list: blank lines, comments and `none` are left
out. -/
def exportNames (lines : List String) : List String :=
  (lines.map strip).filter fun l =>
    l ≠ "" ∧ l.toList.head? ≠ some '#' ∧ l ≠ "none"

/-- `re.match(r'\Adefine (.*) @'+name+r'\b', ll_line)`. A name is a C
identifier, so that it stands for itself in the pattern. -/
def matchesDefine (name line : String) : Bool :=
  matchesUpTo "define ".toList (" @" ++ name).toList line.toList

/-- The lines of the IR that give `name` a hook. -/
def hookLines (ir : List String) (name : String) : List String :=
  ir.filter fun line =>
    matchesDefine name line &&
      !(contains "internal" line.toList || contains "..." line.toList)

def wrapsOfName (ir : List String) (lib : Modules) (name : String) :
    Option (List Wrap) :=
  (hookLines ir name).mapM (makeWrap lib name)

def wrapsOfLib (ir : List String) (lib : Modules) (lines : List String) :
    Option (List Wrap) :=
  ((exportNames lines).mapM (wrapsOfName ir lib)).map List.flatten

/-- The hooks that the generator prints for the export lists `exports` and the
lines `ir` of `unikraft.ll`. -/
def generate (exports : Modules → List String) (ir : List String) :
    Option (List Wrap) :=
  ((liblist.filter fun m => !skipped m).mapM fun lib =>
    wrapsOfLib ir lib (exports lib)).map List.flatten

/-- `change_module`: the application's `main` is in `app.so`. -/
def changeModule (module : Modules) (name : String) : String :=
  if name = "main" ∧ module = .ukboot then "app.so" else "lib" ++ module.lib ++ ".so"

/-! ## §4  What gets a hook -/

/-- A symbol of an export list, as the pattern and `struct hooks_s` need it. -/
structure IsSymbol (name : String) : Prop where
  word : ∀ c ∈ name.toList, isWord c = true
  nonempty : name ≠ ""
  fits : name.length < 4096

/-- `line` defines `name` in the syntax of LLVM: linkage and result type are
`head`, the parameters and what follows them are `tail`. -/
def DefineLine (name line head tail : String) : Prop :=
  line = "define " ++ head ++ " @" ++ name ++ "(" ++ tail

theorem liblist_not_skipped : ∀ m ∈ liblist, skipped m = false := by
  intro m _
  unfold skipped
  -- evaluated on lists of characters, which is cheaper than joining strings
  simp only [String.toList_append]
  revert m
  decide +kernel

theorem mem_liblist {m : Modules} : m ∈ liblist ↔ m ≠ .app := by
  cases m <;> decide

/-- No library is left out. -/
theorem generate_eq (exports : Modules → List String) (ir : List String) :
    generate exports ir =
      (liblist.mapM fun lib => wrapsOfLib ir lib (exports lib)).map List.flatten := by
  have hall : liblist.filter (fun m => !skipped m) = liblist := by
    apply List.filter_eq_self.mpr
    intro m hm
    rw [liblist_not_skipped m hm]
    rfl
  rw [generate, hall]

theorem makeWrap_spec {lib : Modules} {name line : String} {w : Wrap}
    (h : makeWrap lib name line = some w) : w.lib = lib ∧ w.name = name := by
  obtain ⟨tp, -, h⟩ := Option.bind_eq_some_iff.mp h
  obtain ⟨ag, -, h⟩ := Option.bind_eq_some_iff.mp h
  obtain ⟨ftype, -, h⟩ := Option.bind_eq_some_iff.mp h
  obtain ⟨args, -, h⟩ := Option.bind_eq_some_iff.mp h
  obtain ⟨args1, -, h⟩ := Option.bind_eq_some_iff.mp h
  cases h
  exact ⟨rfl, rfl⟩

/-- The hook that the generator writes for `name` at the line `line` of the
IR. -/
def Hooked (ir : List String) (lib : Modules) (name line : String) (w : Wrap) : Prop :=
  line ∈ hookLines ir name ∧ makeWrap lib name line = some w

section Generated

variable {exports : Modules → List String} {ir : List String} {wraps : List Wrap}
  {lib : Modules} {name line : String} {w : Wrap}

/-- A name in the export list of a library, with a line that gives it a hook,
has one. -/
theorem generate_hooked (h : generate exports ir = some wraps) (hlib : lib ≠ .app)
    (hname : name ∈ exportNames (exports lib)) (hline : line ∈ hookLines ir name) :
    ∃ w ∈ wraps, Hooked ir lib name line w := by
  rw [generate_eq] at h
  obtain ⟨perLib, hperLib, rfl⟩ := Option.map_eq_some_iff.mp h
  obtain ⟨ofLib, hofLib, hwraps⟩ := mem_of_mapM hperLib (mem_liblist.mpr hlib)
  obtain ⟨perName, hperName, rfl⟩ := Option.map_eq_some_iff.mp hwraps
  obtain ⟨ofName, hofName, hwraps⟩ := mem_of_mapM hperName hname
  obtain ⟨w, hw, hmake⟩ := mem_of_mapM hwraps hline
  refine ⟨w, ?_, hline, hmake⟩
  exact List.mem_flatten_of_mem hofLib (List.mem_flatten_of_mem hofName hw)

/-- What the generator prints: the hooks of the exported names, line by line, and
nothing else. -/
theorem mem_generate_iff (h : generate exports ir = some wraps) :
    w ∈ wraps ↔ ∃ lib name line, lib ≠ .app ∧ name ∈ exportNames (exports lib) ∧
      Hooked ir lib name line w := by
  constructor
  · intro hw
    rw [generate_eq] at h
    obtain ⟨perLib, hperLib, rfl⟩ := Option.map_eq_some_iff.mp h
    obtain ⟨ofLib, hofLib, hw⟩ := List.mem_flatten.mp hw
    obtain ⟨lib, hlib, hwraps⟩ := of_mem_mapM hperLib hofLib
    obtain ⟨perName, hperName, rfl⟩ := Option.map_eq_some_iff.mp hwraps
    obtain ⟨ofName, hofName, hw⟩ := List.mem_flatten.mp hw
    obtain ⟨name, hname, hwraps⟩ := of_mem_mapM hperName hofName
    obtain ⟨line, hline, hmake⟩ := of_mem_mapM hwraps hw
    exact ⟨lib, name, line, mem_liblist.mp hlib, hname, hline, hmake⟩
  · rintro ⟨lib, name, line, hlib, hname, hline, hmake⟩
    obtain ⟨w', hw', -, hmake'⟩ := generate_hooked h hlib hname hline
    rw [hmake'] at hmake
    cases hmake
    exact hw'

/-- Hooks are written for libraries with an export list only. -/
theorem generate_lib (h : generate exports ir = some wraps) (hw : w ∈ wraps) :
    w.lib ≠ .app := by
  obtain ⟨lib, name, line, hlib, -, -, hmake⟩ := (mem_generate_iff h).mp hw
  rwa [(makeWrap_spec hmake).1]

end Generated

/-- The file that a hook is registered for is that of the cubicle it switches
to. -/
theorem changeModule_eq {module : Modules} (hm : module ≠ .app) (name : String) :
    changeModule module name = (changeEnum module name).modname := by
  unfold changeModule changeEnum
  by_cases h : name = "main" ∧ module = .ukboot
  · rw [if_pos h, if_pos h]
    rfl
  · rw [if_neg h, if_neg h]
    cases module with
    | app => exact absurd rfl hm
    | _ => rfl

theorem matchesDefine_of_word {name line head tail : String}
    (hword : ∀ c ∈ name.toList, isWord c = true) (hname : name ≠ "")
    (h : DefineLine name line head tail) : matchesDefine name line = true := by
  have hne : (" @" ++ name).toList ≠ [] := by simp
  have hlast : ((" @" ++ name).toList.getLast hne) ∈ name.toList := by
    have hname' : name.toList ≠ [] := by
      intro hnil
      exact hname (String.toList_inj.mp hnil)
    have : (" @" ++ name).toList.getLast hne = name.toList.getLast hname' := by
      simp only [String.toList_append]
      exact List.getLast_append_of_ne_nil _ hname'
    rw [this]
    exact List.getLast_mem hname'
  have hline : line.toList = "define ".toList ++ head.toList ++ (" @" ++ name).toList ++
      '(' :: tail.toList := by
    rw [h]
    simp [List.append_assoc]
  unfold matchesDefine
  rw [hline]
  exact matchesUpTo_append (List.getLast?_eq_some_getLast hne) (hword _ hlast) rfl

theorem matchesDefine_of_defineLine {name line head tail : String}
    (hname : IsSymbol name) (h : DefineLine name line head tail) :
    matchesDefine name line = true :=
  matchesDefine_of_word hname.word hname.nonempty h

/-! ## §5  Parameters -/

/-- The types a parameter has in the IR. A pointer is written with the type it
points to, which can be any text: that of a function has commas and
parentheses. -/
inductive IrType where
  | i8 | i16 | i32 | i64
  | pointer (pointee : List Char)
deriving DecidableEq, Repr

def IrType.text : IrType → List Char
  | .i8 => "i8".toList
  | .i16 => "i16".toList
  | .i32 => "i32".toList
  | .i64 => "i64".toList
  | .pointer pointee => pointee ++ ['*']

def IrType.bits : IrType → ℕ
  | .i8 => 8
  | .i16 => 16
  | .i32 => 32
  | .i64 => 64
  | .pointer _ => 64

def CType.bits : CType → ℕ
  | .uint8 => 8
  | .uint16 => 16
  | .uint32 => 32
  | .uint64 => 64

/-- A parameter of a definition, with the blanks in front of it. -/
structure IrParam where
  lead : List Char
  type : IrType
  attrs : List Char
  name : List Char
deriving DecidableEq, Repr

def IrParam.text (p : IrParam) : List Char := p.lead ++ p.type.text ++ p.attrs ++ p.name

/-- The parameter list of a definition and what follows it. -/
def paramTail (params : List IrParam) (tail : String) : String :=
  String.ofList ([','].intercalate (params.map IrParam.text) ++ ')' :: tail.toList)

/-- A hook for a function with the parameters `params`: as many of the same
width in the same order, the function called through a pointer to a function of
the hook's own parameters and with all of them, and `makecontext` told of two
more. -/
structure Wrap.Forwards (w : Wrap) (params : List IrParam) : Prop where
  widths : w.args.map (fun a => a.1.bits) = params.map fun p => p.type.bits
  cast : w.args1 = w.args.map Prod.fst
  call : w.args2 = w.args.map Prod.snd
  distinct : w.args2.Nodup
  count : w.narg = params.length + 2

/-- The texts that the generator takes for those of the parameters: it reads
from the first `(` of the line, which may be one in front of the name, to the
last `)`, which may be one behind the parameters. -/
def seenParams (name head tail : String) (params : List IrParam) : List (List Char) :=
  framed (parenLead ("define " ++ head ++ " @" ++ name).toList) (parenTrail tail.toList)
    (params.map IrParam.text)

/-- And with the commas between them: the whole text that it takes for the
parameter list. -/
def listText (name head tail : String) (params : List IrParam) : List Char :=
  parenLead ("define " ++ head ++ " @" ++ name).toList ++
    [','].intercalate (params.map IrParam.text) ++ parenTrail tail.toList

/-- What is read for the result type. -/
def resultPart (head : String) : List Char :=
  before "define".toList (' ' :: before ['@'] (head.toList ++ [' ']))

/-- In the text of a parameter of this type, attributes and name included,
nothing is taken for another type. -/
def IrType.Shows (t : List Char) : IrType → Prop
  | .i8 => ¬ contains "*" t
  | .i16 => ¬ contains "*" t ∧ ¬ contains "i8" t
  | .i32 => ¬ contains "*" t ∧ ¬ contains "i8" t ∧ ¬ contains "i16" t
  | .i64 => contains "*" t ∨
      ¬ contains "i8" t ∧ ¬ contains "i16" t ∧ ¬ contains "i32" t
  | .pointer _ => True

instance (t : List Char) : (ty : IrType) → Decidable (ty.Shows t)
  | .i8 => inferInstanceAs (Decidable (¬ _))
  | .i16 => inferInstanceAs (Decidable (_ ∧ _))
  | .i32 => inferInstanceAs (Decidable (_ ∧ _))
  | .i64 => inferInstanceAs (Decidable (_ ∨ _))
  | .pointer _ => isTrue trivial

/-- A line that can be read by its commas and the letters between them. -/
structure Legible (line name head tail : String) (params : List IrParam) : Prop where
  /-- Nothing in the line looks like linkage or variadic parameters. -/
  taken : ¬ contains "internal" line.toList ∧ ¬ contains "..." line.toList
  /-- The result is of a type that the generator knows. -/
  result : ∃ s ∈ ["*", "i8", "i16", "i32", "i64", "void"], contains s (resultPart head)
  /-- Without parameters there is nothing else in parentheses either. -/
  bare : params = [] →
    parenLead ("define " ++ head ++ " @" ++ name).toList = [] ∧ parenTrail tail.toList = []
  commas : ∀ t ∈ seenParams name head tail params, ',' ∉ t
  shown : List.Forall₂ (fun p t => IrType.Shows t p.type) params
    (seenParams name head tail params)

theorem getType_isSome_iff {t : List Char} :
    (getType t).isSome ↔ ∃ s ∈ ["*", "i8", "i16", "i32", "i64", "void"], contains s t := by
  unfold getType
  split_ifs <;> simp_all

/-- The type that is read off a parameter's text has the right width exactly
when nothing in it is taken for another type. -/
theorem getType_bits_iff {ty : IrType} {t : List Char} (h : ty.text <:+: t) :
    (∃ c, getType t = some c ∧ c.bits = ty.bits) ↔ ty.Shows t := by
  have hself : ∀ s : String, contains s ty.text = true → contains s t = true :=
    fun s hs => contains_of_infix hs h
  unfold getType
  cases ty with
  | i8 =>
      have h8 := hself "i8" (by decide)
      split_ifs <;> simp_all [IrType.Shows, CType.bits, IrType.bits]
  | i16 =>
      have h16 := hself "i16" (by decide)
      split_ifs <;> simp_all [IrType.Shows, CType.bits, IrType.bits]
  | i32 =>
      have h32 := hself "i32" (by decide)
      split_ifs <;> simp_all [IrType.Shows, CType.bits, IrType.bits]
  | i64 =>
      have h64 := hself "i64" (by decide)
      split_ifs <;> simp_all [IrType.Shows, CType.bits, IrType.bits]
  | pointer pointee =>
      have hstar : contains "*" t = true := by
        apply hself
        unfold contains
        rw [decide_eq_true_eq]
        exact ⟨pointee, [], by simp [IrType.text]⟩
      simp [hstar, IrType.Shows, CType.bits, IrType.bits]

/-- The same for a list of parameters. -/
theorem mapM_getType_iff {params : List IrParam} {ts : List (List Char)}
    (h : List.Forall₂ (fun p t => p.type.text <:+: t) params ts) :
    (∃ cs, ts.mapM getType = some cs ∧
      cs.map CType.bits = params.map fun p => p.type.bits) ↔
      List.Forall₂ (fun p t => IrType.Shows t p.type) params ts := by
  induction h with
  | nil => simp
  | @cons p t params ts hpt hts ih =>
      rw [List.forall₂_cons, ← ih, ← getType_bits_iff hpt]
      constructor
      · rintro ⟨cs, hcs, hbits⟩
        obtain ⟨c, cs, hc, hrest, rfl⟩ := mapM_cons_eq_some.mp hcs
        rw [List.map_cons, List.map_cons, List.cons.injEq] at hbits
        exact ⟨⟨c, hc, hbits.1⟩, cs, hrest, hbits.2⟩
      · rintro ⟨⟨c, hc, hbit⟩, cs, hrest, hbits⟩
        refine ⟨c :: cs, mapM_cons_eq_some.mpr ⟨c, cs, hc, hrest, rfl⟩, ?_⟩
        rw [List.map_cons, List.map_cons, hbit, hbits]

section Line

variable {name line head tail : String} {params : List IrParam}

theorem defineLine_toList (h : DefineLine name line head (paramTail params tail)) :
    line.toList = ("define " ++ head ++ " @" ++ name).toList ++
      '(' :: ([','].intercalate (params.map IrParam.text) ++ ')' :: tail.toList) := by
  rw [h, paramTail]
  simp [List.append_assoc]

theorem resultText_defineLine {rest : String} (h : DefineLine name line head rest) :
    resultText line.toList = some (resultPart head) := by
  have hline : line.toList =
      "define ".toList ++ ((head.toList ++ [' ']) ++ '@' :: (name.toList ++ '(' :: rest.toList)) := by
    rw [h]
    simp [List.append_assoc]
  unfold resultText resultPart
  rw [hline, before_append_of_notMem (by decide), before_cut]
  simp [after, List.isPrefixOf]

/-- What the generator takes for the parameter list. -/
theorem inParens_defineLine (h : DefineLine name line head (paramTail params tail)) :
    inParens line.toList = some (listText name head tail params) := by
  rw [defineLine_toList h, inParens_append]
  rfl

theorem seenParams_text (name head tail : String) (params : List IrParam) :
    List.Forall₂ (fun p t => p.type.text <:+: t) params
      (seenParams name head tail params) := by
  have h := framed_infix (parenLead ("define " ++ head ++ " @" ++ name).toList)
    (parenTrail tail.toList) (params.map IrParam.text)
  rw [List.forall₂_map_left_iff] at h
  refine h.imp fun p t hpt => List.IsInfix.trans ?_ hpt
  exact ⟨p.lead, p.attrs ++ p.name, by simp [IrParam.text]⟩

theorem makeWrap_eq_some_iff {lib : Modules} {tp ag : List Char} {w : Wrap}
    (htp : resultText line.toList = some tp) (hag : inParens line.toList = some ag) :
    makeWrap lib name line = some w ↔ ∃ ftype args1, getType tp = some ftype ∧
      convArgs1 ag = some args1 ∧
      w = { lib := lib, name := name, ftype := ftype, args := args1.zipIdx, args1 := args1,
            args2 := convArgs2 (argCount ag), narg := argCount ag + 2 } := by
  unfold makeWrap convArgs
  rw [htp, hag, Option.bind_some, Option.bind_some]
  constructor
  · intro h
    obtain ⟨ftype, hf, h⟩ := Option.bind_eq_some_iff.mp h
    obtain ⟨args, ha, h⟩ := Option.bind_eq_some_iff.mp h
    obtain ⟨args1, ha1, h⟩ := Option.bind_eq_some_iff.mp h
    rw [ha1] at ha
    cases ha
    cases h
    exact ⟨ftype, args1, hf, ha1, rfl⟩
  · rintro ⟨ftype, args1, hf, ha1, rfl⟩
    simp [hf, ha1]

theorem seenParams_ne_nil (h : params ≠ []) : seenParams name head tail params ≠ [] := by
  intro hnil
  have hlen := congrArg List.length hnil
  rw [seenParams, length_framed, List.length_map] at hlen
  exact h (List.length_eq_zero_iff.mp hlen)

theorem listText_eq (h : params ≠ []) :
    listText name head tail params =
      [','].intercalate (seenParams name head tail params) := by
  unfold listText seenParams
  rw [intercalate_framed]
  simpa using h

theorem listText_ne_nil (h : params ≠ []) : listText name head tail params ≠ [] := by
  cases params with
  | nil => exact absurd rfl h
  | cons p ps =>
      have hne : p.text ≠ [] := by
        unfold IrParam.text
        cases p.type <;> simp [IrType.text]
      unfold listText
      cases ps <;> simp [List.intercalate, hne]

/-- The parameters are counted right exactly when there are no commas but those
between them, and without parameters nothing else in parentheses. -/
theorem argCount_listText_iff :
    argCount (listText name head tail params) = params.length ↔
      (params = [] → parenLead ("define " ++ head ++ " @" ++ name).toList = [] ∧
        parenTrail tail.toList = []) ∧
      ∀ t ∈ seenParams name head tail params, ',' ∉ t := by
  by_cases h : params = []
  · subst h
    simp [argCount, listText, seenParams, framed, List.intercalate]
  · have hlen : params.length = (seenParams name head tail params).length := by
      simp [seenParams]
    rw [argCount, if_neg (listText_ne_nil h), listText_eq h, hlen,
      count_intercalate_eq_length (seenParams_ne_nil h)]
    simp [h]

/-- Counted right, the parameters are also read one by one. -/
theorem convArgs1_listText
    (hbare : params = [] → parenLead ("define " ++ head ++ " @" ++ name).toList = [] ∧
      parenTrail tail.toList = [])
    (hcommas : ∀ t ∈ seenParams name head tail params, ',' ∉ t) :
    convArgs1 (listText name head tail params) =
      (seenParams name head tail params).mapM getType := by
  by_cases h : params = []
  · obtain ⟨hlead, htrail⟩ := hbare h
    rw [listText, hlead, htrail, h]
    rfl
  · rw [convArgs1, if_neg (listText_ne_nil h), listText_eq h,
      List.splitOn_intercalate _ hcommas (seenParams_ne_nil h)]

theorem map_bits_zipIdx (cs : List CType) :
    cs.zipIdx.map (fun a => a.1.bits) = cs.map CType.bits := by
  have h : cs.zipIdx.map Prod.fst = cs := List.zipIdx_map_fst 0 cs
  calc cs.zipIdx.map (fun a => a.1.bits) = (cs.zipIdx.map Prod.fst).map CType.bits := by
        rw [List.map_map]
        rfl
    _ = cs.map CType.bits := by rw [h]

/-- The generator writes a hook that forwards all arguments exactly for the
lines that it can read by their commas and the letters between them. -/
theorem hook_forwards_iff {ir : List String} {lib : Modules} (hir : line ∈ ir)
    (hword : ∀ c ∈ name.toList, isWord c = true) (hname : name ≠ "")
    (hline : DefineLine name line head (paramTail params tail)) :
    (∃ w, Hooked ir lib name line w ∧ w.Forwards params) ↔
      Legible line name head tail params := by
  have hmake (w : Wrap) : makeWrap lib name line = some w ↔ _ :=
    makeWrap_eq_some_iff (resultText_defineLine hline) (inParens_defineLine hline)
  have htext := seenParams_text name head tail params
  constructor
  · rintro ⟨w, ⟨hmem, hw⟩, hfwd⟩
    obtain ⟨ftype, args1, hftype, hargs1, rfl⟩ := (hmake w).mp hw
    obtain ⟨hbare, hcommas⟩ := argCount_listText_iff.mp (Nat.add_right_cancel hfwd.count)
    have htaken := (List.mem_filter.mp hmem).2
    rw [convArgs1_listText hbare hcommas] at hargs1
    refine ⟨?_, ?_, hbare, hcommas, ?_⟩
    · simp only [Bool.and_eq_true, Bool.not_eq_true', Bool.or_eq_false_iff] at htaken
      simpa using htaken.2
    · rw [← getType_isSome_iff, hftype]
      rfl
    · rw [← mapM_getType_iff htext]
      exact ⟨args1, hargs1, (map_bits_zipIdx args1).symm.trans hfwd.widths⟩
  · intro h
    obtain ⟨args1, hargs1, hbits⟩ := (mapM_getType_iff htext).mpr h.shown
    obtain ⟨ftype, hftype⟩ := Option.isSome_iff_exists.mp (getType_isSome_iff.mpr h.result)
    have hcount := argCount_listText_iff.mpr ⟨h.bare, h.commas⟩
    have hlen : args1.length = params.length := by
      simpa using congrArg List.length hbits
    rw [← convArgs1_listText h.bare h.commas] at hargs1
    refine ⟨_, ⟨?_, (hmake _).mpr ⟨ftype, args1, hftype, hargs1, rfl⟩⟩, ?_⟩
    · rw [hookLines, List.mem_filter]
      refine ⟨hir, ?_⟩
      have hmatch := matchesDefine_of_word hword hname hline
      simp [hmatch, h.taken.1, h.taken.2]
    · refine ⟨(map_bits_zipIdx args1).trans hbits, ?_, ?_, ?_, ?_⟩
      · exact (List.zipIdx_map_fst 0 args1).symm
      · change convArgs2 (argCount (listText name head tail params)) = args1.zipIdx.map Prod.snd
        rw [hcount, List.zipIdx_map_snd, hlen, convArgs2, List.range_eq_range']
      · exact List.nodup_range
      · change argCount (listText name head tail params) + 2 = params.length + 2
        rw [hcount]

end Line

/-- `write(fd, buf, count)`. -/
def writeParams : List IrParam :=
  [ { lead := [], type := .i32, attrs := [' '], name := "%0".toList },
    { lead := [' '], type := .pointer "i8".toList, attrs := " nocapture readonly ".toList,
      name := "%1".toList },
    { lead := [' '], type := .i64, attrs := [' '], name := "%2".toList } ]

def writeLine : String :=
  "define dso_local i64 @write(i32 %0, i8* nocapture readonly %1, i64 %2) local_unnamed_addr #0"

theorem write_forwards :
    ∃ w, Hooked [writeLine] .vfscore "write" writeLine w ∧ w.Forwards writeParams := by
  have hline : DefineLine "write" writeLine "dso_local i64"
      (paramTail writeParams " local_unnamed_addr #0") := by
    unfold DefineLine
    decide +kernel
  have hword : "write".toList.all isWord = true := by decide
  refine (hook_forwards_iff List.mem_cons_self (List.all_eq_true.mp hword) (by decide)
    hline).mpr ?_
  exact {
    taken := by decide +kernel
    result := by decide +kernel
    bare := by
      intro h
      cases h
    commas := by decide +kernel
    shown := by decide +kernel }

/-- `qsort(base, nmemb, size, compar)`. -/
def qsortParams : List IrParam :=
  [ { lead := [], type := .pointer "i8".toList, attrs := [' '], name := "%0".toList },
    { lead := [' '], type := .i64, attrs := [' '], name := "%1".toList },
    { lead := [' '], type := .i64, attrs := [' '], name := "%2".toList },
    { lead := [' '], type := .pointer "i32 (i8*, i8*)".toList, attrs := " nocapture ".toList,
      name := "%3".toList } ]

def qsortLine : String :=
  "define dso_local void @qsort(i8* %0, i64 %1, i64 %2, i32 (i8*, i8*)* nocapture %3) #0"

/-- A comparison function has a comma of its own, and the hook of a function that
takes one has a parameter too many. -/
theorem qsort_gets_five_parameters :
    DefineLine "qsort" qsortLine "dso_local void" (paramTail qsortParams " #0") ∧
      qsortParams.length = 4 ∧
      (makeWrap .vfscore "qsort" qsortLine).map (fun w => (w.args.length, w.narg)) =
        some (5, 7) ∧
      ¬ ∃ w, Hooked [qsortLine] .vfscore "qsort" qsortLine w ∧ w.Forwards qsortParams := by
  have hwrap : (makeWrap .vfscore "qsort" qsortLine).map (fun w => (w.args.length, w.narg)) =
      some (5, 7) := by decide +kernel
  have hline : DefineLine "qsort" qsortLine "dso_local void" (paramTail qsortParams " #0") := by
    unfold DefineLine
    decide +kernel
  refine ⟨hline, rfl, hwrap, ?_⟩
  rintro ⟨w, ⟨-, hmake⟩, hfwd⟩
  rw [hmake, Option.map_some, Option.some.injEq, Prod.mk.injEq, hfwd.count] at hwrap
  exact absurd hwrap.2 (by decide)

end CubicleOS
