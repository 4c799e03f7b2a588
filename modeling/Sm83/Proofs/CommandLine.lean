import Mathlib.Data.List.Perm.Basic
import Sm83.Console.Options
import Sm83.Proofs.Numerals

/-!
Command lines as choices in a row. A choice is one argument, or a breakpoint option with its address; from left to
right a line is made of choices up to an argument that does not fit, if there is one.
-/

set_option autoImplicit false

namespace Sm83

def Argument.Fits (text : String) : Argument → Prop
  | .debug => text = "--debug"
  | .fast => text = "--fast"
  | .breakpoint => text = "--break"
  | .unknown => ['-', '-'] <+: text.toList ∧ text ∉ ["--debug", "--fast", "--break"]
  | .path => ¬ ['-', '-'] <+: text.toList

theorem Argument.kind_eq_iff {text : String} {k : Argument} : kind text = k ↔ k.Fits text := by
  rw [kind]
  split
  next h =>
    subst h
    cases k <;> simp [Fits]
  split
  next h =>
    subst h
    cases k <;> simp [Fits]
  split
  next h =>
    subst h
    cases k <;> simp [Fits]
  split
  next hd hf hb h =>
    have hp := List.isPrefixOf_iff_prefix.1 h
    cases k <;> simp [Fits, hd, hf, hb, hp]
  next hd hf hb h =>
    have hp := mt List.isPrefixOf_iff_prefix.2 h
    cases k <;> simp [Fits, hd, hf, hb, hp]

theorem Argument.kind_break : kind "--break" = .breakpoint := kind_eq_iff.2 rfl

/-- What is chosen by one or two arguments that belong together. -/
inductive Choice where
  | debug
  | fast
  | breakpoint (text : String) (address : Word) (reads : readAddress text = .ok address)
  | path (text : String) (plain : ¬ ['-', '-'] <+: text.toList)

namespace Choice

def arguments : Choice → List String
  | .debug => ["--debug"]
  | .fast => ["--fast"]
  | .breakpoint text _ _ => ["--break", text]
  | .path text _ => [text]

def path? : Choice → Option String
  | .path text _ => some text
  | _ => none

def address? : Choice → Option Word
  | .breakpoint _ a _ => some a
  | _ => none

def line (cs : List Choice) : List String := cs.flatMap arguments

def paths (cs : List Choice) : List String := cs.filterMap path?

def addresses (cs : List Choice) : List Word := cs.filterMap address?

theorem paths_cons (c : Choice) (cs : List Choice) : paths (c :: cs) = c.path?.toList ++ paths cs := by
  cases c <;> rfl

theorem none_or_one {cs : List Choice} (h : (paths cs).length ≤ 1) : paths cs = [] ∨ ∃ path, paths cs = [path] :=
  (Nat.le_one_iff_eq_zero_or_eq_one.1 h).imp List.length_eq_zero_iff.1 List.length_eq_one_iff.1

theorem addresses_cons (c : Choice) (cs : List Choice) :
    addresses (c :: cs) = c.address?.toList ++ addresses cs := by
  cases c <;> rfl

def apply (o : Options) : Choice → Options
  | .debug => { o with debug := true }
  | .fast => { o with fast := true }
  | .breakpoint _ a _ => { o with breakpoints := o.breakpoints ++ [a] }
  | .path _ _ => o

theorem debug_foldl (cs : List Choice) (o : Options) :
    (cs.foldl apply o).debug = true ↔ o.debug = true ∨ .debug ∈ cs := by
  induction cs generalizing o with
  | nil => simp
  | cons c cs ih =>
    rw [List.foldl_cons, ih]
    cases c <;> simp [apply]

theorem fast_foldl (cs : List Choice) (o : Options) :
    (cs.foldl apply o).fast = true ↔ o.fast = true ∨ .fast ∈ cs := by
  induction cs generalizing o with
  | nil => simp
  | cons c cs ih =>
    rw [List.foldl_cons, ih]
    cases c <;> simp [apply]

theorem breakpoints_foldl (cs : List Choice) (o : Options) :
    (cs.foldl apply o).breakpoints = o.breakpoints ++ addresses cs := by
  induction cs generalizing o with
  | nil => simp [addresses]
  | cons c cs ih =>
    rw [List.foldl_cons, ih, addresses_cons]
    cases c <;> simp [apply, address?]

structure Makes (cs : List Choice) (i : Invocation) : Prop where
  path : paths cs = [i.path]
  debug : i.options.debug = true ↔ .debug ∈ cs
  fast : i.options.fast = true ↔ .fast ∈ cs
  breakpoints : i.options.breakpoints = addresses cs

theorem Makes.foldl {cs : List Choice} {i : Invocation} (h : Makes cs i) : cs.foldl apply {} = i.options := by
  have hd : (cs.foldl apply {}).debug = i.options.debug :=
    Bool.eq_iff_iff.2 ((debug_foldl cs {}).trans (by simp [h.debug]))
  have hf : (cs.foldl apply {}).fast = i.options.fast :=
    Bool.eq_iff_iff.2 ((fast_foldl cs {}).trans (by simp [h.fast]))
  have hb : (cs.foldl apply {}).breakpoints = i.options.breakpoints :=
    (breakpoints_foldl cs {}).trans (by simp [h.breakpoints])
  calc cs.foldl apply {}
    _ = ⟨(cs.foldl apply {}).debug, (cs.foldl apply {}).fast, (cs.foldl apply {}).breakpoints⟩ := rfl
    _ = i.options := by rw [hd, hf, hb]

theorem makes_foldl {cs : List Choice} {path : String} (h : paths cs = [path]) :
    Makes cs ⟨path, cs.foldl apply {}⟩ where
  path := h
  debug := (debug_foldl cs {}).trans (by simp)
  fast := (fast_foldl cs {}).trans (by simp)
  breakpoints := breakpoints_foldl cs {}

theorem Makes.perm {cs ds : List Choice} {i : Invocation} (h : Makes cs i) (hp : cs.Perm ds) :
    Makes ds { i with options := { i.options with breakpoints := addresses ds } } where
  path := List.perm_singleton.1 ((hp.filterMap path?).symm.trans (.of_eq h.path))
  debug := h.debug.trans hp.mem_iff
  fast := h.fast.trans hp.mem_iff
  breakpoints := rfl

def kind : Choice → Argument
  | .debug => .debug
  | .fast => .fast
  | .breakpoint _ _ _ => .breakpoint
  | .path _ _ => .path

theorem kind_head (c : Choice) : c.arguments.head?.map Argument.kind = some c.kind := by
  cases c with
  | debug | fast | breakpoint => rfl
  | path text plain => exact congrArg some (Argument.kind_eq_iff.2 plain)

theorem arguments_append_inj {c d : Choice} {as bs : List String} (h : c.arguments ++ as = d.arguments ++ bs) :
    c = d ∧ as = bs := by
  have hn (c : Choice) : c.arguments ≠ [] := by cases c <;> simp [arguments]
  have hk : c.kind = d.kind := by
    have hh := congrArg (fun args => args.head?.map Argument.kind) h
    simp only [List.head?_append_of_ne_nil _ (hn _), kind_head] at hh
    exact Option.some.inj hh
  cases c <;> cases d <;> cases hk
  · exact ⟨rfl, List.append_cancel_left h⟩
  · exact ⟨rfl, List.append_cancel_left h⟩
  next text a ha other b hb =>
    obtain ⟨rfl, rfl⟩ : text = other ∧ as = bs := by simpa [arguments] using h
    cases ha.symm.trans hb
    exact ⟨rfl, rfl⟩
  next text hp other ho =>
    obtain ⟨rfl, rfl⟩ : text = other ∧ as = bs := by simpa [arguments] using h
    exact ⟨rfl, rfl⟩

theorem line_inj {cs ds : List Choice} (h : line cs = line ds) : cs = ds := by
  have hn (c : Choice) (cs : List Choice) : line (c :: cs) ≠ [] := by cases c <;> simp [line, arguments]
  induction cs generalizing ds with
  | nil =>
    cases ds with
    | nil => rfl
    | cons d ds => exact (hn d ds h.symm).elim
  | cons c cs ih =>
    cases ds with
    | nil => exact (hn c cs h).elim
    | cons d ds =>
      obtain ⟨rfl, ht⟩ := arguments_append_inj h
      rw [ih ht]

def ofInvocation (i : Invocation) (plain : ¬ ['-', '-'] <+: i.path.toList) : List Choice :=
  .path i.path plain :: ((if i.options.debug then [.debug] else []) ++ (if i.options.fast then [.fast] else []) ++
    i.options.breakpoints.map fun a => .breakpoint (Hex.word a) a (readAddress_word a))

theorem makes_ofInvocation (i : Invocation) (plain : ¬ ['-', '-'] <+: i.path.toList) :
    Makes (ofInvocation i plain) i := by
  have hp (as : List Word) : paths (as.map fun a => .breakpoint (Hex.word a) a (readAddress_word a)) = [] := by
    induction as with
    | nil => rfl
    | cons a as ih =>
      rw [List.map_cons, paths_cons, ih]
      rfl
  have ha (as : List Word) : addresses (as.map fun a => .breakpoint (Hex.word a) a (readAddress_word a)) = as := by
    induction as with
    | nil => rfl
    | cons a as ih =>
      rw [List.map_cons, addresses_cons, ih]
      rfl
  obtain ⟨path, debug, fast, breakpoints⟩ := i
  constructor
  · cases debug <;> cases fast <;> simp [ofInvocation, paths_cons, path?, hp]
  · cases debug <;> cases fast <;> simp [ofInvocation]
  · cases debug <;> cases fast <;> simp [ofInvocation]
  · cases debug <;> cases fast <;> simp [ofInvocation, addresses_cons, address?, ha]

end Choice

/-- The first of the arguments does not fit behind choices with these paths, and the failure says why. -/
inductive Offends (paths : List String) : List String → Failure → Prop where
  | unaddressed : Offends paths ["--break"] .optionLacksAddress
  | misaddressed (text : String) (rest : List String) (f : Failure) (fails : readAddress text = .error f) :
    Offends paths ("--break" :: text :: rest) f
  | unknown (text : String) (rest : List String) (dashed : ['-', '-'] <+: text.toList)
    (other : text ∉ ["--debug", "--fast", "--break"]) : Offends paths (text :: rest) (.unknownOption text)
  | second (text : String) (rest : List String) (plain : ¬ ['-', '-'] <+: text.toList) (given : paths ≠ []) :
    Offends paths (text :: rest) (.unexpectedArgument text)

theorem Offends.ne_noImage {paths rest : List String} {f : Failure} (h : Offends paths rest f) : f ≠ .noImage := by
  cases h with
  | misaddressed text rest f fails =>
    obtain ⟨problem, rfl⟩ := exists_of_readAddress fails
    exact nofun
  | _ => exact nofun

namespace Invocation

open Choice

theorem readFrom_arguments {path : Option String} (o : Options) (c : Choice) (rest : List String)
    (h : (path.toList ++ c.path?.toList).length ≤ 1) :
    readFrom path o (c.arguments ++ rest) = readFrom (path.or c.path?) (c.apply o) rest := by
  cases c with
  | debug =>
    have hk : Argument.kind "--debug" = .debug := rfl
    simp only [arguments, path?, Option.or_none, List.singleton_append, readFrom.eq_def path o (_ :: _), hk, apply]
  | fast =>
    have hk : Argument.kind "--fast" = .fast := rfl
    simp only [arguments, path?, Option.or_none, List.singleton_append, readFrom.eq_def path o (_ :: _), hk, apply]
  | breakpoint text a reads =>
    simp only [arguments, path?, Option.or_none, List.cons_append, List.nil_append,
      readFrom.eq_def path o (_ :: _), Argument.kind_break, reads, apply]
  | path text plain =>
    have hk : Argument.kind text = .path := Argument.kind_eq_iff.2 plain
    cases path with
    | none => simp only [arguments, path?, Option.none_or, List.singleton_append, readFrom.eq_def none o (_ :: _), hk, apply]
    | some _ => simp [path?] at h

theorem readFrom_line {path : Option String} (o : Options) (cs : List Choice) (rest : List String)
    (h : (path.toList ++ paths cs).length ≤ 1) :
    readFrom path o (line cs ++ rest) = readFrom (path.or (paths cs).head?) (cs.foldl apply o) rest := by
  induction cs generalizing path o with
  | nil => simp [line, paths]
  | cons c cs ih =>
    rw [paths_cons, List.length_append, List.length_append] at h
    rw [line, List.flatMap_cons, List.append_assoc, readFrom_arguments o c _ (by simp; omega)]
    have hc : (path.or c.path?).toList.length ≤ path.toList.length + c.path?.toList.length := by
      cases path <;> simp
    refine (ih (c.apply o) (by rw [List.length_append]; omega)).trans ?_
    rw [paths_cons, List.foldl_cons]
    cases c.path? <;> simp

theorem readFrom_of_offends {path : Option String} {o : Options} {rest : List String} {f : Failure}
    (h : Offends path.toList rest f) : readFrom path o rest = .error f := by
  cases h with
  | unaddressed =>
    rw [readFrom.eq_def]
    simp only [Argument.kind_break]
  | misaddressed text rest f fails =>
    rw [readFrom.eq_def]
    simp only [Argument.kind_break, fails]
  | unknown text rest dashed other =>
    have hk : Argument.kind text = .unknown := Argument.kind_eq_iff.2 ⟨dashed, other⟩
    rw [readFrom.eq_def]
    simp only [hk]
  | second text rest plain given =>
    have hk : Argument.kind text = .path := Argument.kind_eq_iff.2 plain
    cases path with
    | none => exact (given rfl).elim
    | some _ =>
      rw [readFrom.eq_def]
      simp only [hk]

theorem exists_choices (path : Option String) (o : Options) (args : List String) : ∃ cs rest, args = line cs ++ rest ∧
    (path.toList ++ paths cs).length ≤ 1 ∧ (rest = [] ∨ ∃ f, Offends (path.toList ++ paths cs) rest f) := by
  have hl (path : Option String) : (path.toList ++ paths []).length ≤ 1 := by cases path <;> simp [paths]
  -- the cases are the reader's, which has seen a path already or not
  fun_induction readFrom path o args with
  | case1 o path => exact ⟨[], [], rfl, hl _, .inl rfl⟩
  | case2 o => exact ⟨[], [], rfl, hl _, .inl rfl⟩
  | case3 path o text rest hk ih =>
    obtain ⟨cs, rest, rfl, hp, hr⟩ := ih
    exact ⟨.debug :: cs, rest, by rw [Argument.kind_eq_iff.1 hk]; rfl, hp, hr⟩
  | case4 path o text rest hk ih =>
    obtain ⟨cs, rest, rfl, hp, hr⟩ := ih
    exact ⟨.fast :: cs, rest, by rw [Argument.kind_eq_iff.1 hk]; rfl, hp, hr⟩
  | case5 path o text hk =>
    have ht : text = "--break" := Argument.kind_eq_iff.1 hk
    subst ht
    exact ⟨[], _, rfl, hl _, .inr ⟨_, .unaddressed⟩⟩
  | case6 path o text hk a rest f hf =>
    have ht : text = "--break" := Argument.kind_eq_iff.1 hk
    subst ht
    exact ⟨[], _, rfl, hl _, .inr ⟨f, .misaddressed a rest f hf⟩⟩
  | case7 path o text hk a rest w hw ih =>
    obtain ⟨cs, rest, rfl, hp, hr⟩ := ih
    exact ⟨.breakpoint a w hw :: cs, rest, by rw [Argument.kind_eq_iff.1 hk]; rfl, hp, hr⟩
  | case8 path o text rest hk =>
    obtain ⟨hd, ho⟩ := Argument.kind_eq_iff.1 hk
    exact ⟨[], _, rfl, hl _, .inr ⟨_, .unknown text rest hd ho⟩⟩
  | case9 o text rest hk ih =>
    obtain ⟨cs, rest, rfl, hp, hr⟩ := ih
    exact ⟨.path text (Argument.kind_eq_iff.1 hk) :: cs, rest, rfl, hp, hr⟩
  | case10 o text rest hk path =>
    exact ⟨[], _, rfl, hl _, .inr ⟨_, .second text rest (Argument.kind_eq_iff.1 hk) (by simp)⟩⟩

theorem read_line {cs : List Choice} (h : (paths cs).length ≤ 1) (rest : List String) :
    read (line cs ++ rest) = readFrom (paths cs).head? (cs.foldl apply {}) rest := by
  have hr := @readFrom_line none {} cs rest h
  rwa [Option.none_or] at hr

theorem read_line_of_path {cs : List Choice} {path : String} (h : paths cs = [path]) :
    read (line cs) = .ok ⟨path, cs.foldl apply {}⟩ := by
  have hr := @read_line cs (by simp [h]) []
  rw [h, List.append_nil] at hr
  exact hr

theorem read_line_of_nil {cs : List Choice} (h : paths cs = []) : read (line cs) = .error .noImage := by
  have hr := @read_line cs (by simp [h]) []
  rw [h, List.append_nil] at hr
  exact hr

theorem read_of_offends {cs : List Choice} {rest : List String} {f : Failure} (h : (paths cs).length ≤ 1)
    (ho : Offends (paths cs) rest f) : read (line cs ++ rest) = .error f := by
  have hp : (paths cs).head?.toList = paths cs := by
    rcases none_or_one h with hc | ⟨path, hc⟩ <;> rw [hc] <;> rfl
  rw [read_line h]
  exact readFrom_of_offends (hp.symm ▸ ho)

theorem line_or_offends (args : List String) :
    (∃ cs path, args = line cs ∧ paths cs = [path]) ∨ (∃ cs, args = line cs ∧ paths cs = []) ∨
      ∃ cs rest f, args = line cs ++ rest ∧ (paths cs).length ≤ 1 ∧ Offends (paths cs) rest f := by
  obtain ⟨cs, rest, rfl, hp, rfl | ⟨f, hf⟩⟩ := exists_choices none {} args
  · rw [List.append_nil]
    obtain hc | ⟨path, hc⟩ := none_or_one hp
    · exact .inr (.inl ⟨cs, rfl, hc⟩)
    · exact .inl ⟨cs, path, rfl, hc⟩
  · exact .inr (.inr ⟨cs, rest, f, rfl, hp, hf⟩)

theorem read_eq_ok_iff {args : List String} {i : Invocation} :
    read args = .ok i ↔ ∃ cs, args = line cs ∧ Makes cs i := by
  constructor
  · intro h
    obtain ⟨cs, path, rfl, hp⟩ | ⟨cs, rfl, hp⟩ | ⟨cs, rest, f, rfl, hp, ho⟩ := line_or_offends args
    · cases (read_line_of_path hp).symm.trans h
      exact ⟨cs, rfl, makes_foldl hp⟩
    · cases (read_line_of_nil hp).symm.trans h
    · cases (read_of_offends hp ho).symm.trans h
  · rintro ⟨cs, rfl, hm⟩
    rw [read_line_of_path hm.path, hm.foldl]

theorem read_eq_error_iff {args : List String} {f : Failure} (hf : f ≠ .noImage) : read args = .error f ↔
    ∃ cs rest, args = line cs ++ rest ∧ (paths cs).length ≤ 1 ∧ Offends (paths cs) rest f := by
  constructor
  · intro h
    obtain ⟨cs, path, rfl, hp⟩ | ⟨cs, rfl, hp⟩ | ⟨cs, rest, g, rfl, hp, ho⟩ := line_or_offends args
    · cases (read_line_of_path hp).symm.trans h
    · cases (read_line_of_nil hp).symm.trans h
      exact (hf rfl).elim
    · cases (read_of_offends hp ho).symm.trans h
      exact ⟨cs, rest, rfl, hp, ho⟩
  · rintro ⟨cs, rest, rfl, hp, ho⟩
    exact read_of_offends hp ho

theorem read_eq_noImage_iff {args : List String} :
    read args = .error .noImage ↔ ∃ cs, args = line cs ∧ paths cs = [] := by
  constructor
  · intro h
    obtain ⟨cs, path, rfl, hp⟩ | ⟨cs, rfl, hp⟩ | ⟨cs, rest, f, rfl, hp, ho⟩ := line_or_offends args
    · cases (read_line_of_path hp).symm.trans h
    · exact ⟨cs, rfl, hp⟩
    · cases (read_of_offends hp ho).symm.trans h
      exact (ho.ne_noImage rfl).elim
  · rintro ⟨cs, rfl, hp⟩
    exact read_line_of_nil hp

end Invocation

open Choice in
/-- An invocation is read from the arguments just if they are choices in a row that make it, with one path among them.
Another order of the choices gives the same but for the order of the breakpoints, and each invocation is read back from
its choices in any order. Otherwise the failure is that of the first argument that does not fit, and that the path is
missing is told only when all fit. -/
theorem Invocation.read_by_choices (args : List String) :
    (∀ i, read args = .ok i ↔ ∃ cs, args = line cs ∧ Makes cs i) ∧
    (∀ cs ds i, cs.Perm ds → read (line cs) = .ok i →
      read (line ds) = .ok { i with options := { i.options with breakpoints := addresses ds } } ∧
        (addresses ds).Perm i.options.breakpoints) ∧
    (∀ i plain cs, cs.Perm (ofInvocation i plain) →
      read (line cs) = .ok { i with options := { i.options with breakpoints := addresses cs } } ∧
        (addresses cs).Perm i.options.breakpoints) ∧
    (∀ f, f ≠ .noImage → (read args = .error f ↔
      ∃ cs rest, args = line cs ++ rest ∧ (paths cs).length ≤ 1 ∧ Offends (paths cs) rest f)) ∧
    (read args = .error .noImage ↔ ∃ cs, args = line cs ∧ paths cs = []) := by
  have hx (cs ds : List Choice) (i : Invocation) (hm : Makes cs i) (hp : cs.Perm ds) :
      read (line ds) = .ok { i with options := { i.options with breakpoints := addresses ds } } ∧
        (addresses ds).Perm i.options.breakpoints :=
    ⟨read_eq_ok_iff.2 ⟨ds, rfl, hm.perm hp⟩, hm.breakpoints ▸ (hp.filterMap address?).symm⟩
  refine ⟨fun i => read_eq_ok_iff, fun cs ds i hp h => ?_, fun i plain cs hp => ?_, fun f => read_eq_error_iff,
    read_eq_noImage_iff⟩
  · obtain ⟨es, he, hm⟩ := read_eq_ok_iff.1 h
    exact hx cs ds i (line_inj he ▸ hm) hp
  · exact hx _ cs i (makes_ofInvocation i plain) hp.symm

open Choice in
/-- Two orders of the same choices, and a line whose first offence is an option in place of an address. -/
theorem Invocation.read_by_choices_reordered :
    let cs : List Choice :=
      [.breakpoint "150" 0x0150 (by rfl), .path "rom.gb" (by decide), .debug, .breakpoint "0xC000" 0xC000 (by rfl)]
    let i : Invocation := ⟨"rom.gb", { debug := true, breakpoints := [0x0150, 0xC000] }⟩
    let j : Invocation := ⟨"rom.gb", { debug := true, breakpoints := [0xC000, 0x0150] }⟩
    let f : Failure := .address "--debug" .notDigit
    cs.Perm cs.reverse ∧ read (line cs) = .ok i ∧ read (line cs.reverse) = .ok j ∧
      (ofInvocation j (by decide)).Perm (ofInvocation j (by decide)) ∧ read (line (ofInvocation j (by decide))) = .ok j ∧
        f ≠ .noImage ∧ read ["rom.gb", "--break", "--debug", "second.gb"] = .error f := by
  intro cs i j f
  have hp : cs.Perm cs.reverse := (List.reverse_perm cs).symm
  obtain ⟨hr, hs, -, -, -⟩ := read_by_choices (line cs)
  obtain ⟨-, -, ho, he, -⟩ := read_by_choices ["rom.gb", "--break", "--debug", "second.gb"]
  have hi : read (line cs) = .ok i := (hr i).2 ⟨cs, rfl, ⟨rfl, by simp [cs, i], by simp [cs, i], rfl⟩⟩
  have hf : f ≠ .noImage := nofun
  refine ⟨hp, hi, (hs cs cs.reverse i hp hi).1, .refl _, (ho j (by decide) _ (.refl _)).1, hf, (he f hf).2 ?_⟩
  exact ⟨[.path "rom.gb" (by decide)], _, rfl, by decide, .misaddressed "--debug" ["second.gb"] f rfl⟩

end Sm83
