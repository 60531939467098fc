import Nanvix.Dlfcn.Symbols
import Nanvix.Library.FirstMax

/-!
# Dynamic libraries: from an address to a symbol

`dladdr` asks the registered libraries one after the other, in the order of
their handles, and reports the first that answers. A library answers with the
entry of its table whose name resolves nearest to the address from below; the
segments of the library are not looked at. So a library that has nothing to do
with the address answers whenever one of its symbols lies below it.

The library that contains the address is reported just when no library with a
smaller handle has a symbol at or below the address, and its own nearest symbol
has a name.

## Implementation notes

The file name in a report is a pointer into the library. It is modelled by the
handle of the library it points into. An entry without a name resolves to
nothing, since no table has the empty name, that of the global symbols included.
-/
namespace Nanvix.Dlfcn

open Nanvix.Library Nanvix.Library.Prog
open Nanvix.Sys (Build)

section Model

/-- `DlInfo`: the library whose file name is reported, its load address, and a symbol. -/
structure DlInfo where
  fname : DlHandle
  fbase : Nat
  sname : String
  saddr : Nat
deriving DecidableEq

/-- `DynamicLibrary::get_symbol_value`. A weak symbol without a definition has the value zero. -/
def getSymbolValue (build : Build) (G : LoadGraph) (globals : GlobalSymbols) (depth : Nat)
    (h : DlHandle) (sym : Symbol) : Prog (Finset DlHandle) Error Nat := do
  let symbolName ← ofExcept sym.name
  match ← lookup G globals depth h symbolName with
  | some (base, symbolValue) => addUsize build base symbolValue
  | none =>
    if sym.isUndefined && sym.isWeak then pure 0
    else throw ⟨.badFile, "symbol not found"⟩

/-- The loop of `DynamicLibrary::query` over the table, with the nearest symbol so far. -/
def queryLoop (build : Build) (G : LoadGraph) (globals : GlobalSymbols) (depth : Nat)
    (h : DlHandle) (loadAddress symbolAddr : Nat) :
    List Symbol → Option DlInfo → Prog (Finset DlHandle) Error (Option DlInfo)
  | [], nearest => pure nearest
  | sym :: syms, nearest => do
      if sym.isUndefined then
        queryLoop build G globals depth h loadAddress symbolAddr syms nearest
      else
        match ← attempt (getSymbolValue build G globals depth h sym), sym.name with
        | .ok symAddr, .ok name =>
          if symAddr ≤ symbolAddr ∧ ∀ info ∈ nearest, info.saddr < symAddr then
            queryLoop build G globals depth h loadAddress symbolAddr syms
              (some ⟨h, loadAddress, name, symAddr⟩)
          else queryLoop build G globals depth h loadAddress symbolAddr syms nearest
        | _, _ => queryLoop build G globals depth h loadAddress symbolAddr syms nearest

/-- `DynamicLibrary::query`. -/
def query (build : Build) (G : LoadGraph) (globals : GlobalSymbols) (depth : Nat) (h : DlHandle)
    (symbolAddr : Nat) : Prog (Finset DlHandle) Error (Option DlInfo) :=
  match G.library h with
  | none => abort "no such library"
  | some lib => queryLoop build G globals depth h lib.loadAddress symbolAddr lib.dynsym none

/-- `dladdr` over the handles of the registry. -/
def dladdr (build : Build) (G : LoadGraph) (globals : GlobalSymbols) (depth : Nat) (addr : Nat) :
    List DlHandle → Prog (Finset DlHandle) Error DlInfo
  | [] => throw ⟨.noSuchEntry, "symbol not found"⟩
  | h :: registry => do
      match ← withLock h (query build G globals depth h addr) with
      | some info => pure info
      | none => dladdr build G globals depth addr registry

end Model

section Query

variable {build : Build} {G : LoadGraph} {globals : GlobalSymbols} {depth : Nat} {h : DlHandle}
variable {lib : LoadedLibrary} {addr : Nat} {sym : Symbol}

/-- The address of a base and an offset from it, as a machine word. -/
def symbolAddress (p : Nat × Nat) : Nat := (p.1 + p.2) % 2 ^ 32

/-- A name that is defined in the table is found there: it is not listed as undefined before. -/
def LoadedLibrary.Coherent (lib : LoadedLibrary) : Prop :=
  ∀ sym ∈ lib.dynsym, sym.isUndefined = false → ∀ name, sym.isNamed name →
    (lib.definition name).isSome

/-- An entry is defined, and the definition of its name lies at or below an address. -/
def LoadedLibrary.Below (lib : LoadedLibrary) (addr : Nat) (sym : Symbol) (a : Nat) : Prop :=
  sym.isUndefined = false ∧ a ≤ addr ∧
    ∃ name p, sym.isNamed name ∧ lib.definition name = some p ∧ symbolAddress p = a

/-- A build that checks for overflow can add up the address of what an entry's name stands for. -/
def LoadedLibrary.Fits (lib : LoadedLibrary) (build : Build) (sym : Symbol) : Prop :=
  build = .dev → sym.isUndefined = false → ∀ name p, sym.isNamed name →
    lib.definition name = some p → p.1 + p.2 < 2 ^ 32

theorem Symbol.isNamed_iff {name : String} :
    sym.isNamed name ↔ sym.name = .ok name ∧ name ≠ "" := by
  unfold Symbol.isNamed
  cases sym.name with
  | error e => simp
  | ok n =>
    simp only [Bool.and_eq_true, Bool.not_eq_true', beq_iff_eq, Except.ok.injEq, and_comm]
    constructor
    · rintro ⟨rfl, hn⟩
      exact ⟨rfl, by rintro rfl; cases hn⟩
    · rintro ⟨rfl, hn⟩
      exact ⟨rfl, by simpa using hn⟩

theorem Symbol.isNamed_unique {m n : String} (hm : sym.isNamed m) (hn : sym.isNamed n) : m = n := by
  have heq := (isNamed_iff.mp hm).1.symm.trans (isNamed_iff.mp hn).1
  injection heq

theorem LoadedLibrary.Below.unique (sym : Symbol) (a b : Nat) (ha : lib.Below addr sym a)
    (hb : lib.Below addr sym b) : a = b := by
  obtain ⟨-, -, m, p, hm, hp, rfl⟩ := ha
  obtain ⟨-, -, n, q, hn, hq, rfl⟩ := hb
  rw [Symbol.isNamed_unique hm hn, hq] at hp
  cases hp
  rfl

/-- No table has a definition of the empty name. -/
theorem LoadedLibrary.definition_empty (lib : LoadedLibrary) : lib.definition "" = none := by
  cases hdef : lib.definition "" with
  | none => rfl
  | some p =>
    obtain ⟨sym, -, hname, -⟩ := exists_of_definition hdef
    exact absurd rfl (Symbol.isNamed_iff.mp hname).2

/-- While the lock of its library is the only one held, a defined entry resolves to what its name
stands for in the table. Without a name it does not resolve. -/
theorem getSymbolValue_run (build : Build) (hglobal : globals "" = none)
    (hlib : G.library h = some lib) (hdepth : G.handles.card < depth) (hcoherent : lib.Coherent)
    (hmem : sym ∈ lib.dynsym) (hundef : sym.isUndefined = false) :
    (∃ name p, sym.isNamed name ∧ lib.definition name = some p ∧
      getSymbolValue build G globals depth h sym {h} = addUsize build p.1 p.2 {h}) ∨
    ((∀ name, ¬sym.isNamed name) ∧
      ∃ e, getSymbolValue build G globals depth h sym {h} = .err e {h}) := by
  unfold getSymbolValue
  cases hname : sym.name with
  | error e =>
    refine Or.inr ⟨fun name hnamed => ?_, e, rfl⟩
    cases hname.symm.trans (Symbol.isNamed_iff.mp hnamed).1
  | ok name =>
    obtain ⟨r, hrun, hgroup⟩ := lookupInLoadGroup_run name hlib hdepth
    rw [bind_ok (rfl : ofExcept (.ok name) _ = .ok name _), bind_ok (lookup_run globals hrun)]
    by_cases hempty : name = ""
    · subst hempty
      have hr : r = none := by
        cases r with
        | none => rfl
        | some p =>
          obtain ⟨_, lib', -, -, hdef⟩ := hgroup.found p rfl
          cases lib'.definition_empty.symm.trans hdef
      refine Or.inr ⟨fun n hn => ?_, ⟨.badFile, "symbol not found"⟩, ?_⟩
      · have heq := hname.symm.trans (Symbol.isNamed_iff.mp hn).1
        injection heq with heq
        exact (Symbol.isNamed_iff.mp hn).2 heq.symm
      · rw [hr, hglobal, hundef]
        rfl
    · have hnamed : sym.isNamed name := Symbol.isNamed_iff.mpr ⟨hname, hempty⟩
      obtain ⟨p, hp⟩ := Option.isSome_iff_exists.mp (hcoherent sym hmem hundef name hnamed)
      rw [hgroup.own p hp]
      exact Or.inl ⟨name, p, hnamed, hp, rfl⟩

/-- What a scan of some entries has found. -/
def Scanned (lib : LoadedLibrary) (h : DlHandle) (addr : Nat) (syms : List Symbol) :
    Option DlInfo → Prop
  | none => ∀ sym ∈ syms, ∀ a, ¬lib.Below addr sym a
  | some info => ∃ sym name a, FirstMax (lib.Below addr) syms sym a ∧ sym.name = .ok name ∧
      info = ⟨h, lib.loadAddress, name, a⟩

variable {done : List Symbol} {nearest : Option DlInfo}

/-- An entry that is not nearer than what was found is passed over. -/
theorem Scanned.skip (hdone : Scanned lib h addr done nearest)
    (hsym : ∀ a, lib.Below addr sym a → ∃ info ∈ nearest, a ≤ info.saddr) :
    Scanned lib h addr (done ++ [sym]) nearest := by
  cases nearest with
  | none =>
    intro x hx a ha
    rcases List.mem_append.mp hx with hx | hx
    · exact hdone x hx a ha
    · rw [List.mem_singleton.mp hx] at ha
      obtain ⟨info, hinfo, -⟩ := hsym a ha
      cases hinfo
  | some info =>
    obtain ⟨x, name, a, hmax, hname, hinfo⟩ := hdone
    refine ⟨x, name, a, hmax.snoc_old fun b hb => ?_, hname, hinfo⟩
    obtain ⟨info', hinfo', hle⟩ := hsym b hb
    rw [← Option.mem_some.mp hinfo', hinfo] at hle
    exact hle

/-- An entry that is nearer than what was found takes its place. -/
theorem Scanned.take (hdone : Scanned lib h addr done nearest) {a : Nat} {name : String}
    (hsym : lib.Below addr sym a) (hname : sym.name = .ok name)
    (hnearer : ∀ info ∈ nearest, info.saddr < a) :
    Scanned lib h addr (done ++ [sym]) (some ⟨h, lib.loadAddress, name, a⟩) := by
  refine ⟨sym, name, a, FirstMax.snoc_new (fun x hx b hb => ?_) hsym, hname, rfl⟩
  cases nearest with
  | none => exact absurd hb (hdone x hx b)
  | some info =>
    obtain ⟨y, _, c, hmax, _, hinfo⟩ := hdone
    have hlt := hnearer info (Option.mem_some_self _)
    rw [hinfo] at hlt
    exact lt_of_le_of_lt (hmax.le LoadedLibrary.Below.unique hx hb) hlt

/-- How the scan of some entries ends: with the first of the nearest entries, or in a panic at one
whose address does not fit. -/
def ScanEnds (build : Build) (lib : LoadedLibrary) (h : DlHandle) (addr : Nat)
    (done syms : List Symbol) (ending : Outcome (Finset DlHandle) Error (Option DlInfo)) : Prop :=
  (∃ r, ending = .ok r {h} ∧ Scanned lib h addr (done ++ syms) r ∧
    ∀ sym ∈ syms, lib.Fits build sym) ∨
  ((∃ sym ∈ syms, ¬lib.Fits build sym) ∧ ∃ m, ending = .abort m)

/-- An entry that fits is behind the scan. -/
theorem ScanEnds.cons {syms : List Symbol}
    {ending : Outcome (Finset DlHandle) Error (Option DlInfo)} (hfits : lib.Fits build sym)
    (hrest : ScanEnds build lib h addr (done ++ [sym]) syms ending) :
    ScanEnds build lib h addr done (sym :: syms) ending := by
  rcases hrest with ⟨r, hrun, hr, hall⟩ | ⟨⟨x, hx, hover⟩, habort⟩
  · rw [← List.append_cons] at hr
    exact Or.inl ⟨r, hrun, hr, List.forall_mem_cons.mpr ⟨hfits, hall⟩⟩
  · exact Or.inr ⟨⟨x, List.mem_cons_of_mem _ hx, hover⟩, habort⟩

/-- The loop over entries of the table. -/
theorem queryLoop_ends (build : Build) (hglobal : globals "" = none)
    (hlib : G.library h = some lib) (hdepth : G.handles.card < depth) (hcoherent : lib.Coherent)
    (syms : List Symbol) (hsyms : ∀ sym ∈ syms, sym ∈ lib.dynsym)
    (hdone : Scanned lib h addr done nearest) :
    ScanEnds build lib h addr done syms
      (queryLoop build G globals depth h lib.loadAddress addr syms nearest {h}) := by
  induction syms generalizing done nearest with
  | nil => exact Or.inl ⟨nearest, rfl, by rwa [List.append_nil], List.forall_mem_nil _⟩
  | cons sym syms ih =>
    obtain ⟨hmem, hrest⟩ := List.forall_mem_cons.mp hsyms
    rw [queryLoop]
    by_cases hundef : sym.isUndefined
    · rw [if_pos hundef]
      have hno : sym.isUndefined ≠ false := by rw [hundef]; exact Bool.noConfusion
      exact (ih hrest (hdone.skip fun a ha => absurd ha.1 hno)).cons
        fun _ hdefined => absurd hdefined hno
    rw [if_neg hundef]
    have hdefined : sym.isUndefined = false := Bool.eq_false_iff.mpr hundef
    rcases getSymbolValue_run build hglobal hlib hdepth hcoherent hmem hdefined with
      ⟨name, p, hnamed, hp, hvalue⟩ | ⟨hunnamed, e, hvalue⟩
    · by_cases hover : build = .dev ∧ 2 ^ 32 ≤ p.1 + p.2
      · rw [addUsize, if_pos hover] at hvalue
        refine Or.inr ⟨⟨sym, List.mem_cons_self, fun hfits => ?_⟩, _, attempt_bind_abort hvalue⟩
        exact absurd (hfits hover.1 hdefined name p hnamed hp) (Nat.not_lt.mpr hover.2)
      have hfits : lib.Fits build sym := by
        intro hdev _ n q hn hq
        rw [Symbol.isNamed_unique hn hnamed, hp] at hq
        cases hq
        exact Nat.lt_of_not_le fun hle => hover ⟨hdev, hle⟩
      have hname := (Symbol.isNamed_iff.mp hnamed).1
      rw [addUsize, if_neg hover] at hvalue
      rw [attempt_bind_ok hvalue, hname]
      by_cases hnearer : symbolAddress p ≤ addr ∧ ∀ info ∈ nearest, info.saddr < symbolAddress p
      · have hbelow : lib.Below addr sym (symbolAddress p) :=
          ⟨hdefined, hnearer.1, name, p, hnamed, hp, rfl⟩
        have hstep := ih hrest (hdone.take hbelow hname hnearer.2)
        simp only [symbolAddress] at hnearer
        simp only [if_pos hnearer]
        exact hstep.cons hfits
      · have hskip : ∀ b, lib.Below addr sym b → ∃ info ∈ nearest, b ≤ info.saddr := by
          rintro b ⟨-, hb, n, q, hn, hq, rfl⟩
          rw [Symbol.isNamed_unique hn hnamed, hp] at hq
          cases hq
          by_contra hfar
          refine hnearer ⟨hb, fun info hinfo => ?_⟩
          exact not_le.mp fun hle => hfar ⟨info, hinfo, hle⟩
        have hstep := ih hrest (hdone.skip hskip)
        simp only [symbolAddress] at hnearer
        simp only [if_neg hnearer]
        exact hstep.cons hfits
    · rw [attempt_bind_err hvalue]
      refine (ih hrest (hdone.skip fun a ha => ?_)).cons fun _ _ n _ hn => absurd hn (hunnamed n)
      obtain ⟨-, -, n, _, hn, -⟩ := ha
      exact absurd hn (hunnamed n)

/-- A library answers with the first of its nearest entries, when its addresses fit. -/
theorem query_ends (build : Build) (hglobal : globals "" = none) (addr : Nat)
    (hlib : G.library h = some lib) (hdepth : G.handles.card < depth)
    (hcoherent : lib.Coherent) :
    ScanEnds build lib h addr [] lib.dynsym (query build G globals depth h addr {h}) := by
  unfold query
  rw [hlib]
  exact queryLoop_ends build hglobal hlib hdepth hcoherent lib.dynsym (fun _ hx => hx)
    fun _ hx => absurd hx List.not_mem_nil

end Query

section Identification

variable {build : Build} {G : LoadGraph} {globals : GlobalSymbols} {depth : Nat} {c : DlHandle}
variable {lib : LoadedLibrary} {addr : Nat} {registry : List DlHandle}

/-- Every address in the library's table fits. -/
def LoadedLibrary.AllFit (lib : LoadedLibrary) (build : Build) : Prop :=
  build = .dev → ∀ name p, lib.definition name = some p → p.1 + p.2 < 2 ^ 32

/-- Nothing that the library defines under a name lies at or below an address. -/
def LoadedLibrary.SilentBelow (lib : LoadedLibrary) (addr : Nat) : Prop :=
  ∀ name p, lib.definition name = some p → addr < symbolAddress p

theorem LoadedLibrary.allFit_iff :
    (∀ sym ∈ lib.dynsym, lib.Fits build sym) ↔ lib.AllFit build := by
  constructor
  · intro hfits hdev name p hp
    obtain ⟨sym, hmem, hname, hundef, -⟩ := exists_of_definition hp
    exact hfits sym hmem hdev hundef name p hname hp
  · exact fun hall sym _ hdev _ name p _ hp => hall hdev name p hp

theorem LoadedLibrary.silentBelow_iff :
    (∀ sym ∈ lib.dynsym, ∀ a, ¬lib.Below addr sym a) ↔ lib.SilentBelow addr := by
  constructor
  · intro hnone name p hp
    obtain ⟨sym, hmem, hname, hundef, -⟩ := exists_of_definition hp
    exact Nat.lt_of_not_le fun hle =>
      hnone sym hmem _ ⟨hundef, hle, name, p, hname, hp, rfl⟩
  · rintro hsilent sym - a ⟨-, hle, name, p, -, hp, rfl⟩
    exact absurd hle (Nat.not_le.mpr (hsilent name p hp))

/-- How the search through a registry ends at a library: with its nearest symbol, or in a panic. -/
def EndsAt (build : Build) (addr : Nat) (d : DlHandle) (lib : LoadedLibrary)
    (ending : Outcome (Finset DlHandle) Error DlInfo) : Prop :=
  (lib.AllFit build ∧ ∃ sym name a, FirstMax (lib.Below addr) lib.dynsym sym a ∧
    sym.name = .ok name ∧ ending = .ok ⟨d, lib.loadAddress, name, a⟩ ∅) ∨
  (¬lib.AllFit build ∧ ∃ m, ending = .abort m)

/-- With no lock held, the search ends at the first library that is not silent or does not fit. -/
theorem dladdr_ends (build : Build) (hglobal : globals "" = none) (addr : Nat)
    (hdepth : G.handles.card < depth)
    (hregistry : ∀ d ∈ registry, ∃ lib, G.library d = some lib ∧ lib.Coherent) :
    (∃ l₁ d l₂ lib, registry = l₁ ++ d :: l₂ ∧ G.library d = some lib ∧
      (∀ x ∈ l₁, ∀ lib', G.library x = some lib' → lib'.AllFit build ∧ lib'.SilentBelow addr) ∧
      EndsAt build addr d lib (dladdr build G globals depth addr registry ∅)) ∨
    ((∀ x ∈ registry, ∀ lib', G.library x = some lib' → lib'.SilentBelow addr) ∧
      dladdr build G globals depth addr registry ∅ =
        .err ⟨.noSuchEntry, "symbol not found"⟩ ∅) := by
  induction registry with
  | nil => exact Or.inr ⟨List.forall_mem_nil _, rfl⟩
  | cons h registry ih =>
    obtain ⟨⟨lib, hlib, hcoherent⟩, hrest⟩ := List.forall_mem_cons.mp hregistry
    have hlock := withLock_run (x := query build G globals depth h addr) (Finset.notMem_empty h)
    rw [show insert h (∅ : Finset DlHandle) = {h} from rfl] at hlock
    rcases query_ends build hglobal addr hlib hdepth hcoherent with
      ⟨r, hquery, hr, hfits⟩ | ⟨⟨sym, hmem, hover⟩, m, hquery⟩
    · rw [hquery] at hlock
      simp only [Finset.erase_singleton] at hlock
      rw [dladdr, bind_ok hlock]
      have hall := LoadedLibrary.allFit_iff.mp hfits
      cases r with
      | some info =>
        obtain ⟨sym, name, a, hmax, hname, rfl⟩ := hr
        exact Or.inl ⟨[], h, registry, lib, rfl, hlib, List.forall_mem_nil _,
          Or.inl ⟨hall, sym, name, a, hmax, hname, rfl⟩⟩
      | none =>
        have hpassed : ∀ lib', G.library h = some lib' →
            lib'.AllFit build ∧ lib'.SilentBelow addr := by
          intro lib' hlib'
          cases hlib.symm.trans hlib'
          exact ⟨hall, LoadedLibrary.silentBelow_iff.mp hr⟩
        rcases ih hrest with ⟨l₁, d, l₂, lib', rfl, hlib', hl₁, hend⟩ | ⟨hsilent, hrun⟩
        · exact Or.inl ⟨h :: l₁, d, l₂, lib', rfl, hlib',
            List.forall_mem_cons.mpr ⟨hpassed, hl₁⟩, hend⟩
        · exact Or.inr ⟨List.forall_mem_cons.mpr ⟨fun l hl => (hpassed l hl).2, hsilent⟩, hrun⟩
    · rw [hquery] at hlock
      rw [dladdr, bind_abort hlock]
      exact Or.inl ⟨[], h, registry, lib, rfl, hlib, List.forall_mem_nil _,
        Or.inr ⟨fun hall => hover (LoadedLibrary.allFit_iff.mpr hall sym hmem), m, rfl⟩⟩

/-- The address lies in a segment of the library. -/
def LoadedLibrary.Contains (lib : LoadedLibrary) (addr : Nat) : Prop :=
  ∃ segment ∈ lib.segments, segment.1 ≤ addr ∧ addr < segment.1 + segment.2

/-- No address lies in segments of two libraries. -/
def LoadGraph.DisjointSegments (G : LoadGraph) (registry : List DlHandle) : Prop :=
  ∀ d ∈ registry, ∀ d' ∈ registry, ∀ lib lib', G.library d = some lib → G.library d' = some lib' →
    ∀ addr, lib.Contains addr → lib'.Contains addr → d = d'

/-- Nothing that the library defines at or below an address lies above `a`. -/
def LoadedLibrary.GreatestBelow (lib : LoadedLibrary) (addr a : Nat) : Prop :=
  ∀ sym ∈ lib.dynsym, sym.isUndefined = false →
    symbolAddress (lib.loadAddress, sym.value) ≤ addr →
    symbolAddress (lib.loadAddress, sym.value) ≤ a

/-- The library has a defined symbol of a name at an address. -/
def LoadedLibrary.HasSymbol (lib : LoadedLibrary) (name : String) (a : Nat) : Prop :=
  ∃ sym ∈ lib.dynsym, sym.isUndefined = false ∧ sym.name = .ok name ∧
    symbolAddress (lib.loadAddress, sym.value) = a

/-- A report names the library that contains the address, and the symbol of that library with the
greatest address not above it. -/
def Identifies (G : LoadGraph) (registry : List DlHandle) (addr : Nat) (info : DlInfo) : Prop :=
  info.fname ∈ registry ∧ ∃ lib, G.library info.fname = some lib ∧ lib.Contains addr ∧
    info.fbase = lib.loadAddress ∧ lib.HasSymbol info.sname info.saddr ∧
    info.saddr ≤ addr ∧ lib.GreatestBelow addr info.saddr

/-- What the tables must be like. Up to the handle of the library itself all addresses can be added
up, what the libraries before it define lies above the address, and the nearest of its own symbols
has a name. -/
structure Identifiable (build : Build) (G : LoadGraph) (registry : List DlHandle) (addr : Nat)
    (c : DlHandle) (lib : LoadedLibrary) : Prop where
  fit : ∀ d ∈ registry, d ≤ c → ∀ lib', G.library d = some lib' → lib'.AllFit build
  earlier : ∀ d ∈ registry, d < c → ∀ lib', G.library d = some lib' → lib'.SilentBelow addr
  own : ∃ name p, lib.definition name = some p ∧ symbolAddress p ≤ addr ∧
    lib.GreatestBelow addr (symbolAddress p)

/-- In a registry in order, what stands before a handle is what is smaller. -/
theorem mem_before_iff {l₁ l₂ : List DlHandle} {d x : DlHandle}
    (hsorted : (l₁ ++ d :: l₂).Pairwise (· < ·)) (hx : x ∈ l₁ ++ d :: l₂) : x ∈ l₁ ↔ x < d := by
  obtain ⟨-, hafter, hcross⟩ := List.pairwise_append.mp hsorted
  constructor
  · exact fun hx => hcross x hx d List.mem_cons_self
  · intro hlt
    refine (List.mem_append.mp hx).resolve_right fun hx => ?_
    rcases List.mem_cons.mp hx with rfl | hx
    · exact absurd hlt (Nat.lt_irrefl _)
    · exact absurd hlt (Nat.lt_asymm ((List.pairwise_cons.mp hafter).1 x hx))

/-- A nearest entry is a symbol of the library, at the address of its name's definition. -/
theorem LoadedLibrary.hasSymbol_of_below {sym : Symbol} {name : String} {a : Nat}
    (hbelow : lib.Below addr sym a) (hname : sym.name = .ok name) :
    lib.HasSymbol name a ∧ ∃ p, lib.definition name = some p ∧ symbolAddress p = a := by
  obtain ⟨-, -, n, p, hn, hp, rfl⟩ := hbelow
  cases hname.symm.trans (Symbol.isNamed_iff.mp hn).1
  obtain ⟨entry, hmem, hentry, hundef, rfl⟩ := exists_of_definition hp
  exact ⟨⟨entry, hmem, hundef, (Symbol.isNamed_iff.mp hentry).1, rfl⟩, _, hp, rfl⟩

/-- Two libraries, each with one symbol at the start of its only segment. -/
def twoLibraries : LoadGraph where
  libraries :=
    [(3, ⟨⟨"liba", [], fun _ => none⟩, 4096, [(4096, 4096)], [⟨.ok "f", 0, false, false⟩]⟩),
      (4, ⟨⟨"libb", [], fun _ => none⟩, 8192, [(8192, 4096)], [⟨.ok "g", 0, false, false⟩]⟩)]
  bound_mem := by decide

theorem twoLibraries_contains {d : DlHandle} (hd : d ∈ [3, 4]) {lib : LoadedLibrary}
    (hlib : twoLibraries.library d = some lib) {a : Nat} (ha : lib.Contains a) :
    d = 3 ∧ a < 8192 ∨ d = 4 ∧ 8192 ≤ a := by
  obtain ⟨segment, hmem, hge, hlt⟩ := ha
  rcases List.mem_pair.mp hd with rfl | rfl
  · cases hlib
    rw [List.mem_singleton.mp hmem] at hlt
    exact Or.inl ⟨rfl, hlt⟩
  · cases hlib
    rw [List.mem_singleton.mp hmem] at hge
    exact Or.inr ⟨rfl, hge⟩

theorem twoLibraries_disjoint : twoLibraries.DisjointSegments [3, 4] := by
  intro d hd d' hd' lib lib' hlib hlib' a ha ha'
  have h := twoLibraries_contains hd hlib ha
  have h' := twoLibraries_contains hd' hlib' ha'
  rcases h with ⟨rfl, hlt⟩ | ⟨rfl, hge⟩ <;> rcases h' with ⟨rfl, hlt'⟩ | ⟨rfl, hge'⟩
  · rfl
  · exact absurd hlt (Nat.not_lt.mpr hge')
  · exact absurd hlt' (Nat.not_lt.mpr hge)
  · rfl

/-- With one entry per name nothing is listed as undefined before its definition. -/
theorem LoadedLibrary.UniqueNames.coherent (hunique : lib.UniqueNames) : lib.Coherent := by
  intro sym hmem hundef name hname
  rw [definition_of_mem hunique hmem hname hundef]
  rfl

theorem twoLibraries_library (d : DlHandle) (hd : d ∈ [3, 4]) :
    ∃ lib, twoLibraries.library d = some lib ∧ lib.Coherent := by
  rcases List.mem_pair.mp hd with rfl | rfl
  · exact ⟨_, rfl, LoadedLibrary.UniqueNames.coherent fun _ => List.length_filter_le _ _⟩
  · exact ⟨_, rfl, LoadedLibrary.UniqueNames.coherent fun _ => List.length_filter_le _ _⟩

end Identification
end Nanvix.Dlfcn
