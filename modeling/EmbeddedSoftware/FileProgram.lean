import EmbeddedSoftware.ArgumentCopy
import EmbeddedSoftware.StructLayout
import Mathlib.Data.List.Induction

/-!
# The file program

In each pass of its endless loop the program copies the arguments into a block from `malloc`,
writes the string in the block to a file, appends a word and then performs an operation. The
position in the block is not reset between the passes, and nothing puts a zero behind the copied
text. So the file holds the arguments after the first pass only, and only when the block had a
zero at the right place to begin with.
-/

namespace EmbeddedSoftware.FileProgram

open CStrings StructLayout ByteLayout ArgumentCopy RunRules

def stringSize : ℕ := 200

@[ext]
structure Block where
  bytes : List UInt8
  length_bytes : bytes.length = stringSize

def Block.store (b : Block) (k : ℕ) (v : List UInt8) : Block where
  bytes := StructLayout.store k v b.bytes
  length_bytes := by rw [length_store, b.length_bytes]

/-- The variables of `main`, and what the file holds. `opened` says that the `fopen` for reading
in front of the loop has found the file. -/
structure State where
  stringIn : Block
  val : ℕ
  file : List UInt8
  opened : Bool

/-- The operations with what the environment adds: whether the file can be opened, and the line
that `fgets` finds, if it is not at the end of the file. -/
inductive Operation where
  | permission | flush (found : Bool) | readChar | readString (line : Option (List UInt8)) | invalid

/-- What is entered in a pass: the word that is asked for when there are no arguments (there is
none at the end of the input), and the operation. -/
structure Input where
  word : Option CString
  operation : Operation

namespace State

/-- A store into the block. There is no next state when it is outside. -/
def storeAt (s : State) (p : ℕ × UInt8) : Option State :=
  if p.1 < stringSize then some { s with stringIn := s.stringIn.store p.1 [p.2] } else none

def put (s : State) (c : UInt8) : Option State :=
  (s.storeAt (s.val, c)).map fun t => { t with val := s.val + 1 }

def copyArgument (s : State) (arg : CString) : Option State :=
  (arg.bytes.foldlM put s).bind fun t => t.put 32

def copyArguments (argv : List CString) (s : State) : Option State :=
  argv.tail.foldlM copyArgument s

/-- `scanf("%s", string_in)`. A word that does not fit is stored outside. -/
def scanWord (s : State) (word : Option CString) : Option State :=
  match word with
  | none => some s
  | some w =>
    if w.bytes.length < stringSize then
      some { s with stringIn := s.stringIn.store 0 (w.bytes ++ [0]) }
    else none

/-- `strlen(string_in)`. Without a zero it reads outside. -/
def strlen (s : State) : Option ℕ :=
  if 0 ∈ s.stringIn.bytes then some (cstr s.stringIn.bytes).length else none

def enter (s : State) (word : Option CString) : Option State :=
  (s.scanWord word).bind fun t => t.strlen.bind fun n => { t with val := n }.put 32

/-- The file is written anew with the string in the block. Then a word is appended. -/
def createWriteAppendFile (s : State) : Option State :=
  s.strlen.map fun n => { s with file := s.stringIn.bytes.take n ++ ascii "yaay" }

/-- The part of a pass in front of the operation. -/
def pass (argv : List CString) (s : State) (word : Option CString) : Option State :=
  (if argv.length = 1 then s.enter word else some s).bind fun t =>
    (t.copyArguments argv).bind createWriteAppendFile

/-- The `switch`. `permissionmodification` ends with a `free` of the literal that is the name of
the file; there is no next pass behind it. The stream is a null pointer when the file was not
found. -/
def operate (s : State) : Operation → Option State
  | .permission => none
  | .flush found => some (if found then { s with file := s.file ++ ascii " HI I am sanika" } else s)
  | .readChar => if s.opened then some s else none
  | .readString none => if s.opened then some s else none
  | .readString (some line) =>
    if s.opened ∧ line.length < stringSize then
      some { s with stringIn := s.stringIn.store 0 (line ++ [0]) }
    else none
  | .invalid => some s

def round (argv : List CString) (s : State) (input : Input) : Option State :=
  (s.pass argv input.word).bind fun t => t.operate input.operation

end State

/-- The states at the top of the passes that are begun, each with what is entered in the pass. -/
def tops (argv : List CString) (s : State) : List Input → List (State × Input)
  | [] => []
  | input :: inputs => (s, input) ::
    match s.round argv input with
    | none => []
    | some t => tops argv t inputs

/-- The counters of the copy loops are `int` here. -/
abbrev copyStep (argv : List CString) : Copy → Option Copy := Copy.exec id argv

/-- The pass from `s` on: all stores of the copy loops, as far as they have come, are inside the
block, and the file then holds the arguments and the word behind them. -/
structure GoodPass (argv : List CString) (s : State) (word : Option CString) : Prop where
  stores : ∀ c, Leads (copyStep argv) (start s.val) c → ∀ p ∈ c.out.stores, p.1 < stringSize
  file : ∃ t, s.pass argv word = some t ∧ t.file = text argv ++ ascii "yaay"

section Copying

variable {s t : State} {argv : List CString} {bytes : List UInt8}

def State.written (s : State) (bytes : List UInt8) : State :=
  { s with stringIn := s.stringIn.store s.val bytes, val := s.val + bytes.length }

theorem written_nil (s : State) : s.written [] = s := by
  have hblock : s.stringIn.store s.val [] = s.stringIn := by
    apply Block.ext
    change s.stringIn.bytes.take s.val ++ overlay [] (s.stringIn.bytes.drop s.val) = _
    rw [overlay, List.take_nil, List.nil_append]
    exact List.take_append_drop _ _
  rw [State.written, hblock]
  rfl

theorem written_written (h : s.val + bytes.length ≤ stringSize) (more : List UInt8) :
    (s.written bytes).written more = s.written (bytes ++ more) := by
  have hblock : (s.stringIn.store s.val bytes).store (s.val + bytes.length) more =
      s.stringIn.store s.val (bytes ++ more) := by
    apply Block.ext
    apply store_store
    rw [s.stringIn.length_bytes]
    exact h
  simp only [State.written, hblock, List.length_append, Nat.add_assoc]

theorem put_of_lt (h : s.val < stringSize) (c : UInt8) : s.put c = some (s.written [c]) := by
  rw [State.put, State.storeAt, if_pos h]
  rfl

theorem put_eq_some_iff {c : UInt8} : s.put c = some t ↔ s.val < stringSize ∧ t = s.written [c] := by
  constructor
  · intro h
    by_cases hlt : s.val < stringSize
    · rw [put_of_lt hlt] at h
      exact ⟨hlt, (Option.some.inj h).symm⟩
    · rw [State.put, State.storeAt, if_neg hlt] at h
      cases h
  · rintro ⟨hlt, rfl⟩
    exact put_of_lt hlt c

/-- The stores one after the other are one store, and none of them is outside. -/
theorem foldlM_put_eq_some_iff (hval : s.val ≤ stringSize) : bytes.foldlM State.put s = some t ↔
    s.val + bytes.length ≤ stringSize ∧ t = s.written bytes := by
  induction bytes generalizing s with
  | nil =>
    rw [List.foldlM_nil, written_nil]
    change some s = some t ↔ _
    rw [Option.some.injEq, eq_comm]
    exact ⟨fun h => ⟨hval, h⟩, And.right⟩
  | cons c bytes ih =>
    have hjoin (hlt : s.val < stringSize) : (s.written [c]).written bytes = s.written (c :: bytes) := by
      have hone : s.val + [c].length ≤ stringSize := hlt
      exact written_written hone bytes
    rw [List.foldlM_cons, Option.bind_eq_bind, Option.bind_eq_some_iff, List.length_cons]
    constructor
    · rintro ⟨u, hput, hrest⟩
      obtain ⟨hlt, rfl⟩ := put_eq_some_iff.mp hput
      have hnext : (s.written [c]).val ≤ stringSize := hlt
      obtain ⟨hle, rfl⟩ := (ih hnext).mp hrest
      refine ⟨?_, hjoin hlt⟩
      change s.val + 1 + bytes.length ≤ stringSize at hle
      omega
    · rintro ⟨hle, rfl⟩
      have hlt : s.val < stringSize := by omega
      have hnext : (s.written [c]).val ≤ stringSize := hlt
      refine ⟨s.written [c], put_of_lt hlt c, (ih hnext).mpr ⟨?_, (hjoin hlt).symm⟩⟩
      change s.val + 1 + bytes.length ≤ stringSize
      omega

theorem foldlM_copyArgument (args : List CString) (s : State) : args.foldlM State.copyArgument s =
    (args.flatMap fun arg => arg.bytes ++ [32]).foldlM State.put s := by
  induction args generalizing s with
  | nil => rfl
  | cons arg args ih =>
    have hcopy : s.copyArgument arg = (arg.bytes ++ [32]).foldlM State.put s := by
      rw [List.foldlM_append, State.copyArgument]
      congr 1
      funext t
      exact (bind_pure (t.put 32)).symm
    rw [List.foldlM_cons, List.flatMap_cons, List.foldlM_append, hcopy]
    congr 1
    funext t
    exact ih t

theorem copyArguments_eq (argv : List CString) (s : State) :
    s.copyArguments argv = (text argv).foldlM State.put s :=
  foldlM_copyArgument argv.tail s

theorem mem_puts_stores {out : Output} {p : ℕ × UInt8} (h : p ∈ (out.puts id bytes).stores) :
    p ∈ out.stores ∨ p.1 < out.val + bytes.length := by
  induction bytes generalizing out with
  | nil => exact .inl h
  | cons c bytes ih =>
    rw [List.length_cons]
    obtain hold | hlt := ih h
    · obtain hold | hnew := List.mem_append.mp hold
      · exact .inl hold
      · rw [List.mem_singleton.mp hnew]
        exact .inr (by change out.val < _; omega)
    · change p.1 < out.val + 1 + bytes.length at hlt
      exact .inr (by omega)

theorem stores_lt_of_leads {val : ℕ} {c : Copy} (h : Leads (copyStep argv) (start val) c) :
    ∀ p ∈ c.out.stores, p.1 < val + (text argv).length := by
  intro p hp
  obtain ⟨t, hrun, hdone, hout⟩ := exists_done (fun n _ => id_eq n) (fun _ _ n _ => id_eq n) val
  have hmem := stores_subset_of_leads (leads_to_end hrun (exec_of_done hdone) h) hp
  rw [hout] at hmem
  obtain hnone | hlt := mem_puts_stores hmem
  · cases hnone
  · exact hlt

theorem foldlM_put_eq_stores (bytes : List UInt8) (s : State) : bytes.foldlM State.put s =
    ((Output.puts id ⟨s.val, []⟩ bytes).stores.foldlM State.storeAt s).map fun t =>
      { t with val := (Output.puts id ⟨s.val, []⟩ bytes).val } := by
  induction bytes using List.reverseRecOn with
  | nil => rfl
  | append_singleton bytes c ih =>
    rw [List.foldlM_append, ih, Output.puts_append]
    generalize Output.puts id ⟨s.val, []⟩ bytes = out
    change _ = ((out.stores ++ [(out.val, c)]).foldlM State.storeAt s).map _
    rw [List.foldlM_append]
    cases out.stores.foldlM State.storeAt s with
    | none => rfl
    | some t =>
      by_cases hlt : out.val < stringSize
      · simp [State.put, State.storeAt, hlt, Output.puts, Output.put]
      · simp [State.put, State.storeAt, hlt]

/-- The copy of a pass makes the stores that the loops have recorded at their end, and goes on
from the position that they have come to. -/
theorem copyArguments_eq_stores {c : Copy} (h : Leads (copyStep argv) (start s.val) c)
    (hdone : c.pc = .done) : s.copyArguments argv =
      (c.out.stores.foldlM State.storeAt s).map fun t => { t with val := c.out.val } := by
  rw [out_of_done (fun n _ => id_eq n) (fun _ _ n _ => id_eq n) h hdone, copyArguments_eq]
  exact foldlM_put_eq_stores (text argv) s

end Copying

section Passes

variable {s t : State} {argv : List CString} {word : Option CString} {input : Input}

theorem zero_notMem_text (argv : List CString) : 0 ∉ text argv := by
  intro h
  obtain ⟨arg, -, hmem⟩ := List.mem_flatMap.mp h
  obtain hbyte | hspace := List.mem_append.mp hmem
  · exact arg.zero_notMem hbyte
  · exact absurd (List.mem_singleton.mp hspace) (by decide)

theorem text_ne_nil (hargc : 2 ≤ argv.length) : text argv ≠ [] := by
  match argv, hargc with
  | _ :: arg :: _, _ =>
    intro h
    rw [text, List.tail_cons, List.flatMap_cons, List.append_assoc] at h
    cases (List.append_eq_nil_iff.mp (List.append_eq_nil_iff.mp h).2).1

/-- The file holds a string and the word when the string and a zero start the block. -/
theorem createWriteAppendFile_iff {string : List UInt8} (hstring : 0 ∉ string) :
    (∃ t, s.createWriteAppendFile = some t ∧ t.file = string ++ ascii "yaay") ↔
      ∃ rest, s.stringIn.bytes = string ++ 0 :: rest := by
  rw [← zero_mem_and_cstr_eq_iff hstring, State.createWriteAppendFile, State.strlen]
  by_cases hzero : 0 ∈ s.stringIn.bytes
  · simp [hzero, take_length_cstr]
  · simp [hzero]

theorem pass_eq (hargc : 2 ≤ argv.length) :
    s.pass argv word = (s.copyArguments argv).bind State.createWriteAppendFile := by
  rw [State.pass, if_neg (by omega)]
  rfl

theorem copyArguments_eq_some_iff (hval : s.val ≤ stringSize) : s.copyArguments argv = some t ↔
    s.val + (text argv).length ≤ stringSize ∧ t = s.written (text argv) := by
  rw [copyArguments_eq]
  exact foldlM_put_eq_some_iff hval

theorem file_of_pass_iff (hargc : 2 ≤ argv.length) (hval : s.val ≤ stringSize) :
    (∃ t, s.pass argv word = some t ∧ t.file = text argv ++ ascii "yaay") ↔
      s.val + (text argv).length ≤ stringSize ∧
        ∃ rest, (s.written (text argv)).stringIn.bytes = text argv ++ 0 :: rest := by
  rw [← createWriteAppendFile_iff (zero_notMem_text argv), pass_eq hargc]
  constructor
  · rintro ⟨t, hpass, hfile⟩
    obtain ⟨u, hcopy, hwrite⟩ := Option.bind_eq_some_iff.mp hpass
    obtain ⟨hle, rfl⟩ := (copyArguments_eq_some_iff hval).mp hcopy
    exact ⟨hle, t, hwrite, hfile⟩
  · rintro ⟨hle, t, hwrite, hfile⟩
    have hcopy := (copyArguments_eq_some_iff hval).mpr ⟨hle, rfl⟩
    exact ⟨t, Option.bind_eq_some_iff.mpr ⟨_, hcopy, hwrite⟩, hfile⟩

/-- The first pass needs a zero from `malloc` behind the text. -/
theorem goodPass_iff_of_first (hargc : 2 ≤ argv.length)
    (hfits : (text argv).length + 1 ≤ stringSize) (hval : s.val = 0) :
    GoodPass argv s word ↔ s.stringIn.bytes[(text argv).length]? = some 0 := by
  have hlength := s.stringIn.length_bytes
  have hbytes : (s.written (text argv)).stringIn.bytes =
      text argv ++ s.stringIn.bytes.drop (text argv).length := by
    change store s.val (text argv) s.stringIn.bytes = _
    rw [hval, store, List.take_zero, List.drop_zero, List.nil_append, overlay,
      List.take_of_length_le (by omega)]
  have hfile : (∃ t, s.pass argv word = some t ∧ t.file = text argv ++ ascii "yaay") ↔ _ :=
    file_of_pass_iff hargc (by omega)
  rw [hbytes, hval] at hfile
  constructor
  · intro hgood
    obtain ⟨-, rest, hrest⟩ := hfile.mp hgood.file
    rw [← List.head?_drop, List.append_cancel_left hrest]
    rfl
  · intro hzero
    refine ⟨?_, hfile.mpr ⟨by omega, s.stringIn.bytes.drop ((text argv).length + 1), ?_⟩⟩
    · intro c hc p hp
      have hlt := stores_lt_of_leads hc p hp
      omega
    · obtain ⟨hlt, hbyte⟩ := List.getElem?_eq_some_iff.mp hzero
      rw [List.drop_eq_getElem_cons hlt, hbyte]

/-- A pass that starts where the text of the first one ends puts a byte over the place of the
zero. -/
theorem not_goodPass_of_second (hargc : 2 ≤ argv.length)
    (hfits : (text argv).length + 1 ≤ stringSize) (hval : s.val = (text argv).length) :
    ¬GoodPass argv s word := by
  intro hgood
  have hlength := s.stringIn.length_bytes
  obtain ⟨hle, rest, hrest⟩ := (file_of_pass_iff hargc (by omega)).mp hgood.file
  change store s.val (text argv) s.stringIn.bytes = _ at hrest
  have hfront : (s.stringIn.bytes.take s.val).length = (text argv).length := by
    rw [List.length_take]
    omega
  rw [store] at hrest
  obtain ⟨-, hover⟩ := List.append_inj hrest hfront
  obtain ⟨c, more, htext⟩ := List.exists_cons_of_ne_nil (text_ne_nil hargc)
  rw [overlay, List.take_of_length_le (by rw [List.length_drop]; omega), htext] at hover
  apply zero_notMem_text argv
  rw [htext, (List.cons.inj hover).1]
  exact List.mem_cons_self

theorem val_of_operate {operation : Operation} (h : s.operate operation = some t) :
    t.val = s.val := by
  cases operation with
  | permission => cases h
  | flush found =>
    cases h
    split <;> rfl
  | readChar =>
    obtain ⟨-, hs⟩ := Option.ite_none_right_eq_some.mp h
    cases hs
    rfl
  | readString line =>
    cases line <;>
    · obtain ⟨-, hs⟩ := Option.ite_none_right_eq_some.mp h
      cases hs
      rfl
  | invalid =>
    cases h
    rfl

theorem val_of_round (hargc : 2 ≤ argv.length) (hval : s.val ≤ stringSize)
    (h : s.round argv input = some t) : t.val = s.val + (text argv).length := by
  obtain ⟨u, hpass, hoperate⟩ := Option.bind_eq_some_iff.mp h
  rw [pass_eq hargc] at hpass
  obtain ⟨v, hcopy, hwrite⟩ := Option.bind_eq_some_iff.mp hpass
  obtain ⟨-, rfl⟩ := (copyArguments_eq_some_iff hval).mp hcopy
  obtain ⟨n, -, rfl⟩ := Option.map_eq_some_iff.mp hwrite
  exact val_of_operate hoperate

theorem not_goodPass_of_round (hargc : 2 ≤ argv.length)
    (hfits : (text argv).length + 1 ≤ stringSize) (hval : s.val = 0)
    (h : s.round argv input = some t) : ¬GoodPass argv t word := by
  have ht := val_of_round hargc (by omega) h
  rw [hval, Nat.zero_add] at ht
  exact not_goodPass_of_second hargc hfits ht

theorem second_mem_tops {next : Input} {inputs : List Input} (h : s.round argv input = some t) :
    (t, next) ∈ tops argv s (input :: next :: inputs) := by
  rw [tops, h]
  exact List.mem_cons_of_mem _ List.mem_cons_self

/-- However many passes are made: all of them are right exactly when there is no second one, and
the block has a zero behind the place of the text to begin with. -/
theorem passes_good_iff (argv : List CString) (hargc : 2 ≤ argv.length)
    (hfits : (text argv).length + 1 ≤ stringSize) (s : State) (hval : s.val = 0)
    (inputs : List Input) :
    (∀ p ∈ tops argv s inputs, GoodPass argv p.1 p.2.word) ↔
      (tops argv s inputs).length ≤ 1 ∧
        (inputs ≠ [] → s.stringIn.bytes[(text argv).length]? = some 0) := by
  cases inputs with
  | nil => simp [tops]
  | cons input inputs =>
    have hfirst : GoodPass argv s input.word ↔ _ := goodPass_iff_of_first hargc hfits hval
    constructor
    · intro hall
      refine ⟨?_, fun _ => hfirst.mp (hall (s, input) List.mem_cons_self)⟩
      cases hround : s.round argv input with
      | none => simp [tops, hround]
      | some t =>
        cases inputs with
        | nil => simp [tops, hround]
        | cons next inputs =>
          have hgood := hall (t, next) (second_mem_tops hround)
          exact absurd hgood (not_goodPass_of_round hargc hfits hval hround)
    · rintro ⟨hlength, hzero⟩ p hp
      obtain ⟨rest, hrest⟩ : ∃ rest, tops argv s (input :: inputs) = (s, input) :: rest := ⟨_, rfl⟩
      rw [hrest, List.length_cons] at hlength
      rw [hrest, List.eq_nil_of_length_eq_zero (by omega : rest.length = 0)] at hp
      rw [List.mem_singleton.mp hp]
      exact hfirst.mpr (hzero (List.cons_ne_nil _ _))

def letterArgument : CString := ⟨[97], by decide⟩

def fresh : State := ⟨⟨List.replicate stringSize 0, List.length_replicate⟩, 0, [], true⟩

def arguments : List CString := [programName, letterArgument]

theorem passes_good_iff_one_pass : 2 ≤ arguments.length ∧
    (text arguments).length + 1 ≤ stringSize ∧ fresh.val = 0 ∧
    ∀ p ∈ tops arguments fresh [⟨none, .invalid⟩], GoodPass arguments p.1 p.2.word := by
  refine ⟨by decide, by decide, rfl, ?_⟩
  apply (passes_good_iff arguments (by decide) (by decide) fresh rfl _).mpr
  refine ⟨?_, fun _ => by decide⟩
  decide +kernel

/-- In the second pass the text is written twice. -/
theorem second_pass_writes_the_text_again :
    ((fresh.round arguments ⟨none, .invalid⟩).bind fun t => t.pass arguments none).map State.file =
      some (ascii "a a yaay") ∧
    ¬∀ p ∈ tops arguments fresh [⟨none, .invalid⟩, ⟨none, .invalid⟩],
      GoodPass arguments p.1 p.2.word := by
  have hsome : (fresh.round arguments ⟨none, .invalid⟩).isSome := by decide +kernel
  obtain ⟨t, ht⟩ := Option.isSome_iff_exists.mp hsome
  refine ⟨by decide +kernel, ?_⟩
  intro hall
  exact not_goodPass_of_round (by decide) (by decide) rfl ht (hall _ (second_mem_tops ht))

end Passes

end EmbeddedSoftware.FileProgram
