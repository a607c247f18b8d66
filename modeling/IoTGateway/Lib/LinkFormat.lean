import Mathlib.Algebra.GroupWithZero.Nat
import Mathlib.Data.List.Perm.Basic

/-! The link format: targets in angle brackets, attributes behind semicolons,
links apart by commas. A value is a token, or a quoted string in which the marks
of the format may stand. A printer that writes values as they are is read back
exactly when every value is a token. -/

namespace LinkFormat

structure Link where
  target : List UInt8
  attrs : List (List UInt8 × Option (List UInt8)) := []
  deriving Repr, DecidableEq

def quote : UInt8 := 34
def comma : UInt8 := 44
def semicolon : UInt8 := 59
def less : UInt8 := 60
def equals : UInt8 := 61
def greater : UInt8 := 62
def backslash : UInt8 := 92

def isUriByte (byte : UInt8) : Bool := 33 ≤ byte && byte ≤ 126 && byte != quote && byte != less && byte != greater

/-- `attr-char`: letters, digits and `!#$&+-.^_` with the backtick, bar and tilde. -/
def isNameByte (byte : UInt8) : Bool :=
  (48 ≤ byte && byte ≤ 57) || (65 ≤ byte && byte ≤ 90) || (97 ≤ byte && byte ≤ 122) ||
    byte ∈ [33, 35, 36, 38, 43, 45, 46, 94, 95, 96, 124, 126]

/-- `ptokenchar`: everything printable but the marks of quoted strings and lists. -/
def isTokenByte (byte : UInt8) : Bool :=
  33 ≤ byte && byte ≤ 126 && byte != quote && byte != comma && byte != semicolon && byte != backslash

/-- `qdtext`: no control bytes besides blanks. -/
def isTextByte (byte : UInt8) : Bool := (32 ≤ byte && byte != 127) || byte ∈ [9, 10, 13]

def IsToken (value : List UInt8) : Prop := value ≠ [] ∧ value.all isTokenByte

def IsName (name : List UInt8) : Prop := name ≠ [] ∧ name.all isNameByte

/-- Where in a link the reader stands, with what it has read of the part there. -/
inductive Place where
  | start
  | target (read : List UInt8)
  | closed
  | name (read : List UInt8)
  | assigned (name : List UInt8)
  | token (name read : List UInt8)
  | quoted (name read : List UInt8)
  | escaped (name read : List UInt8)
  deriving Repr, DecidableEq

structure Reader where
  links : List Link := []
  link : Link := { target := [] }
  place : Place := .start
  deriving Repr, DecidableEq

def Link.add (link : Link) (name : List UInt8) (value : Option (List UInt8)) : Link :=
  { link with attrs := link.attrs ++ [(name, value)] }

/-- The current link, where it may end. -/
def Reader.complete (reader : Reader) : Option Link :=
  match reader.place with
  | .closed => some reader.link
  | .name read => if read = [] then none else some (reader.link.add read none)
  | .token name read => some (reader.link.add name (some read))
  | _ => none

def Reader.separate (reader : Reader) (byte : UInt8) : Option Reader :=
  match reader.complete with
  | none => none
  | some link =>
    if byte = semicolon then some { reader with link := link, place := .name [] }
    else if byte = comma then some { links := reader.links ++ [link] }
    else none

def Reader.step (reader : Reader) (byte : UInt8) : Option Reader :=
  match reader.place with
  | .start => if byte = less then some { reader with place := .target [] } else none
  | .target read =>
    if byte = greater then some { reader with link := { target := read }, place := .closed }
    else if isUriByte byte then some { reader with place := .target (read ++ [byte]) }
    else none
  | .closed => reader.separate byte
  | .name read =>
    if isNameByte byte then some { reader with place := .name (read ++ [byte]) }
    else if byte = equals ∧ read ≠ [] then some { reader with place := .assigned read }
    else reader.separate byte
  | .assigned name =>
    if byte = quote then some { reader with place := .quoted name [] }
    else if isTokenByte byte then some { reader with place := .token name [byte] }
    else none
  | .token name read =>
    if isTokenByte byte then some { reader with place := .token name (read ++ [byte]) } else reader.separate byte
  | .quoted name read =>
    if byte = quote then some { reader with link := reader.link.add name (some read), place := .closed }
    else if byte = backslash then some { reader with place := .escaped name read }
    else if isTextByte byte then some { reader with place := .quoted name (read ++ [byte]) }
    else none
  | .escaped name read => if byte < 128 then some { reader with place := .quoted name (read ++ [byte]) } else none

def Reader.finish (reader : Reader) : Option (List Link) :=
  if reader.links = [] ∧ reader.place = .start then some []
  else reader.complete.map fun link => reader.links ++ [link]

def Reader.run (reader : Reader) (text : List UInt8) : Option Reader := text.foldlM Reader.step reader

def parse (text : List UInt8) : Option (List Link) := (Reader.run {} text).bind Reader.finish

def printAttr (attr : List UInt8 × List UInt8) : List UInt8 := semicolon :: (attr.1 ++ equals :: attr.2)

def print (target : List UInt8) (attrs : List (List UInt8 × List UInt8)) : List UInt8 :=
  less :: (target ++ greater :: attrs.flatMap printAttr)

theorem Reader.run_append (reader : Reader) (first second : List UInt8) :
    reader.run (first ++ second) = (reader.run first).bind fun next => next.run second :=
  List.foldlM_append

theorem Reader.run_cons {reader next : Reader} {byte : UInt8} (step : reader.step byte = some next)
    (rest : List UInt8) : reader.run (byte :: rest) = next.run rest := by
  rw [run, List.foldlM_cons, step]
  rfl

theorem Reader.run_span {links : List Link} {link : Link} {place : List UInt8 → Place} {inside : UInt8 → Bool}
    (step : ∀ read byte, inside byte = true → Reader.step { links, link, place := place read } byte =
      some { links, link, place := place (read ++ [byte]) }) (read bytes : List UInt8) (all : bytes.all inside) :
    Reader.run { links, link, place := place read } bytes = some { links, link, place := place (read ++ bytes) } := by
  induction bytes generalizing read with
  | nil => simp [run]
  | cons byte bytes ih =>
    rw [List.all_cons, Bool.and_eq_true] at all
    rw [run_cons (step read byte all.1), ih _ all.2, List.append_assoc, List.singleton_append]

theorem Reader.run_target (links : List Link) (link : Link) (read bytes : List UInt8) (uri : bytes.all isUriByte) :
    Reader.run { links, link, place := .target read } bytes =
      some { links, link, place := .target (read ++ bytes) } := by
  apply run_span _ read bytes uri
  intro read byte uri
  have inside : byte ≠ greater := by
    rintro rfl
    exact absurd uri (by decide)
  simp [Reader.step, inside, uri]

theorem Reader.run_name (links : List Link) (link : Link) (read bytes : List UInt8) (name : bytes.all isNameByte) :
    Reader.run { links, link, place := .name read } bytes = some { links, link, place := .name (read ++ bytes) } := by
  apply run_span _ read bytes name
  intro read byte name
  simp [Reader.step, name]

theorem Reader.run_token (links : List Link) (link : Link) (name read bytes : List UInt8)
    (token : bytes.all isTokenByte) : Reader.run { links, link, place := .token name read } bytes =
      some { links, link, place := .token name (read ++ bytes) } := by
  apply run_span _ read bytes token
  intro read byte token
  simp [Reader.step, token]

theorem Reader.step_semicolon {reader : Reader} {link : Link} (complete : reader.complete = some link) :
    reader.step semicolon = some { reader with link := link, place := .name [] } := by
  have named : isNameByte semicolon = false := by decide
  have token : isTokenByte semicolon = false := by decide
  have equal : semicolon ≠ equals := by decide
  obtain ⟨links, current, place⟩ := reader
  cases place with
  | closed => simp [step, separate, complete]
  | name read => simp [step, separate, complete, named, equal]
  | token name read => simp [step, separate, complete, token]
  | _ => simp [Reader.complete] at complete

theorem Reader.run_attr {reader : Reader} {link : Link} (complete : reader.complete = some link)
    {attr : List UInt8 × List UInt8} (name : IsName attr.1) (value : IsToken attr.2) :
    reader.run (printAttr attr) = some { links := reader.links, link, place := .token attr.1 attr.2 } := by
  obtain ⟨key, text⟩ := attr
  obtain ⟨byte, rest, rfl⟩ := List.exists_cons_of_ne_nil value.1
  have token := value.2
  rw [List.all_cons, Bool.and_eq_true] at token
  have unquoted : byte ≠ quote := by
    rintro rfl
    exact absurd token.1 (by decide)
  have equal : isNameByte equals = false := by decide
  have assigned : Reader.step { links := reader.links, link, place := .name key } equals =
      some { links := reader.links, link, place := .assigned key } := by simp [Reader.step, equal, name.1]
  have begun : Reader.step { links := reader.links, link, place := .assigned key } byte =
      some { links := reader.links, link, place := .token key [byte] } := by simp [Reader.step, unquoted, token.1]
  rw [printAttr, run_cons (step_semicolon complete), run_append, run_name _ _ _ _ name.2, Option.bind_some,
    List.nil_append, run_cons assigned, run_cons begun, run_token _ _ _ _ _ token.2, List.singleton_append]

theorem Reader.run_attrs {reader : Reader} {link : Link} (complete : reader.complete = some link)
    (attrs : List (List UInt8 × List UInt8)) (names : ∀ attr ∈ attrs, IsName attr.1)
    (values : ∀ attr ∈ attrs, IsToken attr.2) : ∃ last, reader.run (attrs.flatMap printAttr) = some last ∧
      last.links = reader.links ∧
      last.complete = some { link with attrs := link.attrs ++ attrs.map fun attr => (attr.1, some attr.2) } := by
  induction attrs generalizing reader link with
  | nil => exact ⟨reader, rfl, rfl, by simpa using complete⟩
  | cons attr attrs ih =>
    have read := run_attr complete (names attr List.mem_cons_self) (values attr List.mem_cons_self)
    have ready : Reader.complete { links := reader.links, link, place := .token attr.1 attr.2 } =
        some (link.add attr.1 (some attr.2)) := rfl
    obtain ⟨last, reached, kept, added⟩ := ih ready (fun other member => names other (List.mem_cons_of_mem _ member))
      (fun other member => values other (List.mem_cons_of_mem _ member))
    refine ⟨last, ?_, kept, ?_⟩
    · rw [List.flatMap_cons, run_append, read, Option.bind_some, reached]
    · rw [added, Link.add, List.append_assoc]
      rfl

theorem parse_print {target : List UInt8} {attrs : List (List UInt8 × List UInt8)} (uri : target.all isUriByte)
    (names : ∀ attr ∈ attrs, IsName attr.1) (values : ∀ attr ∈ attrs, IsToken attr.2) :
    parse (print target attrs) = some [{ target, attrs := attrs.map fun attr => (attr.1, some attr.2) }] := by
  have opened : Reader.step {} less = some { place := .target [] } := rfl
  have closed : Reader.step { place := .target target } greater = some { link := { target }, place := .closed } := rfl
  have ready : Reader.complete { link := { target }, place := .closed } = some { target } := rfl
  obtain ⟨last, reached, none, complete⟩ := Reader.run_attrs ready attrs names values
  have read : Reader.run {} (print target attrs) = some last := by
    rw [print, Reader.run_cons opened, Reader.run_append, Reader.run_target _ _ _ _ uri, Option.bind_some,
      List.nil_append, Reader.run_cons closed, reached]
  have ended : ¬ (last.links = [] ∧ last.place = .start) := by
    intro both
    simp [Reader.complete, both.2] at complete
  rw [parse, read, Option.bind_some, Reader.finish, if_neg ended, complete, none]
  rfl

def attrSize (attr : List UInt8 × Option (List UInt8)) : Nat :=
  1 + attr.1.length + match attr.2 with
    | none => 0
    | some value => 1 + value.length

/-- The bytes a link takes with its values written as they are. -/
def Link.size (link : Link) : Nat := 2 + link.target.length + (link.attrs.map attrSize).sum

def Link.Plain (link : Link) : Prop := ∀ attr ∈ link.attrs, ∀ value, attr.2 = some value → IsToken value

def Reader.placeSize (reader : Reader) : Nat :=
  match reader.place with
  | .start => 0
  | .target read => 1 + read.length
  | .closed => reader.link.size
  | .name read => reader.link.size + attrSize (read, none)
  | .assigned name => reader.link.size + attrSize (name, some [])
  | .token name read => reader.link.size + attrSize (name, some read)
  | .quoted name read => reader.link.size + attrSize (name, some read)
  | .escaped name read => reader.link.size + attrSize (name, some read)

def Reader.size (reader : Reader) : Nat := (reader.links.map (·.size + 1)).sum + reader.placeSize

def Reader.Plain (reader : Reader) : Prop :=
  match reader.place with
  | .start => True
  | .target _ => True
  | .closed => reader.link.Plain
  | .name _ => reader.link.Plain
  | .assigned _ => reader.link.Plain
  | .token _ read => reader.link.Plain ∧ IsToken read
  | .quoted _ _ => False
  | .escaped _ _ => False

/-- The reader accounts for every byte read so far and has met no quotes, or it
accounts for fewer. -/
def Reader.Tight (reader : Reader) (consumed : Nat) : Prop :=
  (reader.size = consumed ∧ reader.Plain) ∨ reader.size < consumed

theorem Link.size_add (link : Link) (name : List UInt8) (value : Option (List UInt8)) :
    (link.add name value).size = link.size + attrSize (name, value) := by
  simp [Link.add, Link.size]
  omega

theorem Link.Plain.add {link : Link} (plain : link.Plain) (name : List UInt8) {value : Option (List UInt8)}
    (token : ∀ text, value = some text → IsToken text) : (link.add name value).Plain := by
  intro attr member text same
  rcases List.mem_append.mp member with old | new
  · exact plain attr old text same
  · rw [List.mem_singleton.mp new] at same
    exact token text same

theorem Reader.complete_cases {reader : Reader} {link : Link} (complete : reader.complete = some link) :
    (reader.place = .closed ∧ link = reader.link) ∨
    (∃ read, reader.place = .name read ∧ link = reader.link.add read none) ∨
    ∃ name read, reader.place = .token name read ∧ link = reader.link.add name (some read) := by
  unfold Reader.complete at complete
  split at complete
  next closed => exact Or.inl ⟨closed, (Option.some.inj complete).symm⟩
  next read place =>
    obtain ⟨_, same⟩ := Option.ite_none_left_eq_some.mp complete
    exact Or.inr (Or.inl ⟨read, place, (Option.some.inj same).symm⟩)
  next name read place => exact Or.inr (Or.inr ⟨name, read, place, (Option.some.inj complete).symm⟩)
  next => cases complete

theorem Reader.complete_size {reader : Reader} {link : Link} (complete : reader.complete = some link) :
    reader.placeSize = link.size := by
  rcases complete_cases complete with ⟨place, rfl⟩ | ⟨read, place, rfl⟩ | ⟨name, read, place, rfl⟩
  · rw [placeSize, place]
  · rw [placeSize, place, Link.size_add]
  · rw [placeSize, place, Link.size_add]

theorem Reader.complete_plain {reader : Reader} {link : Link} (complete : reader.complete = some link)
    (plain : reader.Plain) : link.Plain := by
  unfold Reader.Plain at plain
  rcases complete_cases complete with ⟨place, rfl⟩ | ⟨read, place, rfl⟩ | ⟨name, read, place, rfl⟩
  · rwa [place] at plain
  · rw [place] at plain
    exact plain.add read (by simp)
  · rw [place] at plain
    exact plain.1.add name (by simpa using plain.2)

/-- What one byte adds: no more than itself, and quotes add nothing. -/
structure Reader.Grows (reader next : Reader) : Prop where
  size : next.size ≤ reader.size + 1
  plain : next.size = reader.size + 1 → reader.Plain → next.Plain

theorem Reader.separate_grows {reader next : Reader} {byte : UInt8} (step : reader.separate byte = some next) :
    reader.Grows next := by
  unfold separate at step
  split at step
  · cases step
  next link complete =>
    have size : reader.size = (reader.links.map (·.size + 1)).sum + link.size := by
      rw [Reader.size, complete_size complete]
    have plain := complete_plain complete
    split at step
    · cases step
      refine ⟨?_, fun _ => plain⟩
      rw [size]
      simp [Reader.size, placeSize, attrSize, Nat.add_assoc]
    · split at step
      · cases step
        refine ⟨?_, fun _ _ => trivial⟩
        rw [size]
        simp [Reader.size, placeSize, Nat.add_assoc]
      · cases step

theorem Reader.step_grows {reader next : Reader} {byte : UInt8} (step : reader.step byte = some next) :
    reader.Grows next := by
  obtain ⟨links, link, place⟩ := reader
  cases place with
  | start =>
    simp only [Reader.step, Option.ite_none_right_eq_some] at step
    obtain ⟨_, same⟩ := step
    cases same
    exact ⟨by simp [Reader.size, placeSize], fun _ _ => trivial⟩
  | target read =>
    simp only [Reader.step] at step
    split at step
    · cases step
      exact ⟨by simp [Reader.size, placeSize, Link.size]; omega, fun _ _ attr member => absurd member List.not_mem_nil⟩
    · obtain ⟨_, same⟩ := Option.ite_none_right_eq_some.mp step
      cases same
      exact ⟨by simp [Reader.size, placeSize]; omega, fun _ _ => trivial⟩
  | closed => exact separate_grows step
  | name read =>
    simp only [Reader.step] at step
    split at step
    · cases step
      exact ⟨by simp [Reader.size, placeSize, attrSize]; omega, fun _ plain => plain⟩
    · split at step
      · cases step
        exact ⟨by simp [Reader.size, placeSize, attrSize]; omega, fun _ plain => plain⟩
      · exact separate_grows step
  | assigned name =>
    simp only [Reader.step] at step
    split at step
    · cases step
      exact ⟨by simp [Reader.size, placeSize], fun grown => absurd grown (by simp [Reader.size, placeSize])⟩
    · obtain ⟨token, same⟩ := Option.ite_none_right_eq_some.mp step
      cases same
      exact ⟨by simp [Reader.size, placeSize, attrSize]; omega, fun _ plain => ⟨plain, by simp [IsToken, token]⟩⟩
  | token name read =>
    simp only [Reader.step] at step
    split at step
    next token =>
      cases step
      exact ⟨by simp [Reader.size, placeSize, attrSize]; omega,
        fun _ plain => ⟨plain.1, by simp, by simpa [token] using plain.2.2⟩⟩
    next => exact separate_grows step
  | quoted name read =>
    refine ⟨?_, fun _ plain => absurd plain id⟩
    simp only [Reader.step] at step
    split at step
    · cases step
      simp [Reader.size, placeSize, Link.size_add]
    · split at step
      · cases step
        simp [Reader.size, placeSize]
      · obtain ⟨_, same⟩ := Option.ite_none_right_eq_some.mp step
        cases same
        simp [Reader.size, placeSize, attrSize]
        omega
  | escaped name read =>
    refine ⟨?_, fun _ plain => absurd plain id⟩
    obtain ⟨_, same⟩ := Option.ite_none_right_eq_some.mp step
    cases same
    simp [Reader.size, placeSize, attrSize]
    omega

theorem Reader.Tight.run {reader last : Reader} {consumed : Nat} (tight : reader.Tight consumed) {text : List UInt8}
    (read : reader.run text = some last) : last.Tight (consumed + text.length) := by
  induction text generalizing reader consumed with
  | nil =>
    cases read
    exact tight
  | cons byte text ih =>
    cases step : reader.step byte with
    | none => simp [Reader.run, step] at read
    | some next =>
      rw [run_cons step] at read
      have grows := step_grows step
      have kept : next.Tight (consumed + 1) := by
        rcases tight with ⟨same, plain⟩ | short
        · rcases Nat.lt_or_ge next.size (consumed + 1) with fewer | all
          · exact Or.inr fewer
          · have size := grows.size
            exact Or.inl ⟨by omega, grows.plain (by omega) plain⟩
        · have size := grows.size
          exact Or.inr (by omega)
      have later := ih kept read
      rwa [List.length_cons, Nat.add_comm text.length, ← Nat.add_assoc]

/-- A single link that takes up its whole text was read without quotes. -/
theorem plain_of_parse {text : List UInt8} {link : Link} (read : parse text = some [link])
    (whole : text.length ≤ link.size) : link.Plain := by
  unfold parse at read
  cases reached : Reader.run {} text with
  | none => simp [reached] at read
  | some last =>
    rw [reached, Option.bind_some, Reader.finish] at read
    split at read
    · cases read
    · obtain ⟨final, complete, same⟩ := Option.map_eq_some_iff.mp read
      obtain ⟨none, single⟩ : last.links = [] ∧ final = link := by
        cases links : last.links with
        | nil => simpa [links] using same
        | cons first rest => simp [links] at same
      subst single
      have started : Reader.Tight {} 0 := Or.inl ⟨rfl, trivial⟩
      have size : last.size = final.size := by simp [Reader.size, none, Reader.complete_size complete]
      rcases started.run reached with ⟨_, plain⟩ | short
      · exact Reader.complete_plain complete plain
      · omega

/-- Attributes printed as they are come back, in whatever order, exactly when
every value is a token. -/
theorem parse_print_iff {target : List UInt8} {attrs : List (List UInt8 × List UInt8)} (uri : target.all isUriByte)
    (names : ∀ attr ∈ attrs, IsName attr.1) :
    (∃ read, parse (print target attrs) = some [{ target, attrs := read }] ∧
      read.Perm (attrs.map fun attr => (attr.1, some attr.2))) ↔ ∀ attr ∈ attrs, IsToken attr.2 := by
  constructor
  · intro back attr member
    obtain ⟨read, parsed, same⟩ := back
    have printed : (attrs.flatMap printAttr).length =
        ((attrs.map fun attr => (attr.1, some attr.2)).map attrSize).sum := by
      simp only [List.length_flatMap, List.map_map]
      congr 1
      apply List.map_congr_left
      intro other _
      simp only [printAttr, List.length_cons, List.length_append, Function.comp, attrSize]
      omega
    have sizes : (read.map attrSize).sum = ((attrs.map fun attr => (attr.1, some attr.2)).map attrSize).sum :=
      (same.map attrSize).sum_nat
    have plain := plain_of_parse parsed (by
      simp only [print, List.length_cons, List.length_append, printed, Link.size, sizes]
      omega)
    exact plain _ (same.symm.subset (List.mem_map.mpr ⟨attr, member, rfl⟩)) attr.2 rfl
  · intro values
    exact ⟨_, parse_print uri names values, List.Perm.refl _⟩

end LinkFormat
