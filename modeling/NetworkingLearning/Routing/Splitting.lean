import NetworkingLearning.Routing.Phases
import NetworkingLearning.Text.Strings

/-!
# The lines of the files (`linkstate.cpp:230-241`, `linkstate.cpp:274-297`, `distvec.cpp:173-184`)

`build_graph` takes a line apart with `str_split` and reads three numbers (`linkstate.cpp:189-193`,
`distvec.cpp:130-134`). `print_messages` reads two ids from the first pieces of a line and prints
the others behind the report, each with a space in front of it. All of this is the same in both
programs.

* A piece that `stoi` does not take ends the program, and so does a piece that is not there. Such a
  line has no numbers (`readLine`), or is no `Message` (`readMessage`).
* The loop of `str_split` runs on fuel; `none` would also mean that it has not ended. Its places are
  those of a `std::string`, with `npos` where there is no space left.
* A piece is printed with `%s`, so up to its first zero. The words of a `Message` are what is
  printed.

Results:
* `strSplit_eq`: the pieces of any string are those of `splitOn`.
* `readLine_printInt`: three printed numbers are read back.
* `split_and_print`: splitting loses nothing, and what is printed behind a report is the text of the
  line exactly if there is no zero in it.
-/

namespace NetworkingLearning.Routing

open NetworkingLearning.Machine NetworkingLearning.Paths NetworkingLearning.Text

/-! ## `str_split` -/

/-- The loop of `str_split` and the piece after it. -/
def splitLoop (input : Str) :
    ℕ → ℕ → ℕ → List (List UInt8) → Option (List (List UInt8))
  | fuel, previous, current, result =>
    if current ≠ npos then
      match fuel with
      | 0 => none
      | fuel + 1 => do
        let piece ← substr input previous (sub64 current previous)
        let previous := u64 (current + 1)
        splitLoop input fuel previous (findFirstOf input 32 previous) (result ++ [piece])
    else do
      let piece ← substr input previous (sub64 current previous)
      some (result ++ [piece])

/-- `str_split`. -/
def strSplit (input : Str) : Option (List (List UInt8)) :=
  splitLoop input input.chars.length 0 (findFirstOf input 32 0) []

/-- The part of `build_graph` that reads a line. -/
def readLine (input : Str) : Option (ℤ × ℤ × ℤ) := do
  let splitted ← strSplit input
  let node1 ← splitted[0]? >>= stoi
  let node2 ← splitted[1]? >>= stoi
  let dist ← splitted[2]? >>= stoi
  some (node1, node2, dist)

/-- The part of the loop body of `print_messages` that reads a line. -/
def readMessage (line : Str) : Option Message := do
  let splitted ← strSplit line
  let node1 ← splitted[0]? >>= stoi
  let node2 ← splitted[1]? >>= stoi
  some ⟨node1, node2, (splitted.drop 2).map fun w => ofBytes (printStr w)⟩

section Split

theorem substr_of_le {s : Str} {pos len : ℕ} (h : pos ≤ s.chars.length) :
    substr s pos len = some ((s.chars.drop pos).take len) := if_neg (not_lt.mpr h)

/-- The loop splits what is left of the string. -/
theorem splitLoop_eq (s : Str) (rest : List UInt8) : ∀ (fuel previous : ℕ)
    (result : List (List UInt8)), previous ≤ s.chars.length → s.chars.drop previous = rest →
      rest.length ≤ fuel →
      splitLoop s fuel previous (findFirstOf s 32 previous) result =
        some (result ++ rest.splitOn 32) := by
  have hsize := s.size_lt
  unfold npos at hsize
  induction rest using pieces_induction (32 : UInt8) with
  | last rest h =>
    intro fuel previous result hle hrest hfuel
    have hlen := congrArg List.length hrest
    rw [List.length_drop] at hlen
    have hmax : sub64 npos previous = npos - previous :=
      sub64_of_le (by unfold npos; omega) (by decide)
    have hpiece : substr s previous (npos - previous) = some rest := by
      rw [substr_of_le hle, hrest, List.take_of_length_le (by unfold npos; omega)]
    rw [findFirstOf_of_notMem (hrest ▸ h), List.splitOn_eq_singleton h]
    cases fuel <;>
      simp only [splitLoop, ne_eq, not_true_eq_false, if_false, hmax, hpiece] <;> rfl
  | next front rest hfront ih =>
    intro fuel previous result hle hrest hfuel
    have hlen := congrArg List.length hrest
    rw [List.length_drop, List.length_append, List.length_cons] at hlen
    rw [List.length_append, List.length_cons] at hfuel
    obtain ⟨fuel, rfl⟩ := Nat.exists_eq_add_one_of_ne_zero (show fuel ≠ 0 by omega)
    have hlt : previous + front.length ≠ npos := by
      unfold npos
      omega
    have hsub : sub64 (previous + front.length) previous = front.length := by
      rw [sub64_of_le (Nat.le_add_right _ _) (by omega), Nat.add_sub_cancel_left]
    have hpiece : substr s previous front.length = some front := by
      rw [substr_of_le hle, hrest, List.take_left]
    have hnext : u64 (previous + front.length + 1) = previous + (front.length + 1) :=
      u64_of_lt (by omega)
    have hdrop : s.chars.drop (previous + (front.length + 1)) = rest := by
      rw [← List.drop_drop, hrest, ← List.drop_drop, List.drop_left]
      rfl
    rw [findFirstOf_of_eq hfront hrest, List.splitOn_append_cons_self_of_not_mem hfront, splitLoop,
      if_pos hlt, hsub, hpiece]
    simp only [Option.bind_eq_bind, Option.bind_some, hnext]
    rw [ih fuel _ _ (by omega) hdrop (by omega), List.append_assoc, List.singleton_append]

/-- **The pieces** are those between the spaces. -/
@[simp] theorem strSplit_eq (s : Str) : strSplit s = some (s.chars.splitOn 32) :=
  splitLoop_eq s s.chars s.chars.length 0 [] (Nat.zero_le _) rfl (le_refl _)

section Lines

variable {line : Str} {a b text : List UInt8}

/-- **A line of three printed numbers** is read as these. -/
theorem readLine_printInt {node1 node2 dist : ℤ} (h1 : -2 ^ 31 ≤ node1 ∧ node1 < 2 ^ 31)
    (h2 : -2 ^ 31 ≤ node2 ∧ node2 < 2 ^ 31) (h3 : -2 ^ 31 ≤ dist ∧ dist < 2 ^ 31)
    (hline : line.chars = printInt node1 ++ 32 :: (printInt node2 ++ 32 :: printInt dist)) :
    readLine line = some (node1, node2, dist) := by
  have hpieces : line.chars.splitOn 32 = [printInt node1, printInt node2, printInt dist] := by
    rw [hline, List.splitOn_append_cons_self_of_not_mem (space_notMem_printInt _),
      List.splitOn_append_cons_self_of_not_mem (space_notMem_printInt _),
      List.splitOn_eq_singleton (space_notMem_printInt _)]
  rw [readLine, strSplit_eq, hpieces]
  simp only [Option.bind_eq_bind, Option.bind_some, List.getElem?_cons_zero,
    List.getElem?_cons_succ, stoi_printInt h1.1 h1.2, stoi_printInt h2.1 h2.2,
    stoi_printInt h3.1 h3.2]

/-- What is read from a line of two ids and a text. -/
theorem readMessage_eq (ha : 32 ∉ a) (hb : 32 ∉ b)
    (hline : line.chars = a ++ 32 :: (b ++ 32 :: text)) :
    readMessage line = (stoi a).bind fun node1 => (stoi b).bind fun node2 =>
      some ⟨node1, node2, (text.splitOn 32).map fun w => ofBytes (printStr w)⟩ := by
  have hpieces : line.chars.splitOn 32 = a :: b :: text.splitOn 32 := by
    rw [hline, List.splitOn_append_cons_self_of_not_mem ha,
      List.splitOn_append_cons_self_of_not_mem hb]
  rw [readMessage, strSplit_eq, hpieces]
  rfl

theorem readMessage_words {m : Message} (hread : readMessage line = some m) (ha : 32 ∉ a)
    (hb : 32 ∉ b) (hline : line.chars = a ++ 32 :: (b ++ 32 :: text)) :
    m.words = (text.splitOn 32).map fun w => ofBytes (printStr w) := by
  rw [readMessage_eq ha hb hline] at hread
  obtain ⟨node1, -, hread⟩ := Option.bind_eq_some_iff.mp hread
  obtain ⟨node2, -, hread⟩ := Option.bind_eq_some_iff.mp hread
  exact congrArg Message.words (Option.some.inj hread).symm

end Lines

end Split

/-! ## What is printed -/

/-- What is printed for a report up to the word `message`. -/
def Report.head (r : Report) : String := Report.text ⟨{ r.message with words := [] }, r.route⟩

section Texts

variable {r : Report}

theorem Report.text_eq (r : Report) :
    r.text = r.head ++ String.join (r.message.words.map fun w => s!" {w}") := by
  unfold Report.head Report.text
  simp only [List.map_nil, String.join_nil, String.append_empty, String.append_assoc]

/-- The words are printed as the bytes that are in them. -/
theorem join_words (pieces : List (List UInt8)) :
    String.join ((pieces.map fun w => ofBytes (printStr w)).map fun w => s!" {w}") =
      ofBytes (pieces.flatMap fun w => 32 :: printStr w) := by
  induction pieces with
  | nil => rfl
  | cons w pieces ih =>
    have hword : s!" {ofBytes (printStr w)}" = ofBytes (32 :: printStr w) := by
      rw [← List.singleton_append, ofBytes_append]
      rfl
    rw [List.map_cons, List.map_cons, String.join_cons, ih, List.flatMap_cons, ofBytes_append,
      hword]

/-- **The words are printed as the text** they were read from, exactly if there is no zero in it. -/
theorem Report.text_iff {line : Str} {a b text : List UInt8}
    (hread : readMessage line = some r.message) (ha : 32 ∉ a) (hb : 32 ∉ b)
    (hline : line.chars = a ++ 32 :: (b ++ 32 :: text)) :
    r.text = r.head ++ ofBytes (32 :: text) ↔ 0 ∉ text := by
  rw [r.text_eq, readMessage_words hread ha hb hline, join_words, String.append_right_inj,
    ofBytes_injective.eq_iff]
  exact printStr_pieces_iff (by decide) text

end Texts

/-- The lines are read as the messages. -/
def Reads (lines : List Str) (messages : List Message) : Prop :=
  List.Forall₂ (fun line m => readMessage line = some m) lines messages

section Files

variable {σ : Type} {print : σ × List Report → Message → Option (σ × List Report)}

/-- Lines are printed one by one as the messages that are read from them. -/
theorem foldlM_readMessage : ∀ (lines : List Str) (st st' : σ × List Report),
    lines.foldlM (fun st line => readMessage line >>= print st) st = some st' ↔
      ∃ messages, Reads lines messages ∧ messages.foldlM print st = some st' := by
  intro lines
  induction lines with
  | nil =>
    intro st st'
    constructor
    · exact fun h => ⟨[], List.Forall₂.nil, h⟩
    · rintro ⟨messages, hreads, h⟩
      obtain rfl := List.forall₂_nil_left_iff.mp hreads
      exact h
  | cons line lines ih =>
    intro st st'
    rw [List.foldlM_cons]
    constructor
    · intro h
      obtain ⟨st1, hst1, h⟩ := Option.bind_eq_some_iff.mp h
      obtain ⟨m, hm, hst1⟩ := Option.bind_eq_some_iff.mp hst1
      obtain ⟨messages, hreads, h⟩ := (ih st1 st').mp h
      refine ⟨m :: messages, List.Forall₂.cons hm hreads, ?_⟩
      rw [List.foldlM_cons, hst1]
      exact h
    · rintro ⟨messages, hreads, h⟩
      obtain ⟨m, rest, hm, hrest, rfl⟩ := List.forall₂_cons_left_iff.mp hreads
      rw [List.foldlM_cons] at h
      obtain ⟨st1, hst1, h⟩ := Option.bind_eq_some_iff.mp h
      rw [hm, Option.bind_eq_bind, Option.bind_eq_bind, Option.bind_some, hst1]
      exact (ih st1 st').mpr ⟨rest, hrest, h⟩

/-- If every message gives one report, so do all of them. -/
theorem foldlM_messages
    (hprint : ∀ st m st', print st m = some st' → ∃ route, st'.2 = st.2 ++ [⟨m, route⟩]) :
    ∀ (messages : List Message) (st st' : σ × List Report),
      messages.foldlM print st = some st' →
      ∃ new, st'.2 = st.2 ++ new ∧ new.map Report.message = messages := by
  intro messages
  induction messages with
  | nil =>
    intro st st' h
    obtain rfl := Option.some.inj h
    exact ⟨[], (List.append_nil _).symm, rfl⟩
  | cons m messages ih =>
    intro st st' h
    rw [List.foldlM_cons] at h
    obtain ⟨st1, hst1, h⟩ := Option.bind_eq_some_iff.mp h
    obtain ⟨route, hroute⟩ := hprint st m st1 hst1
    obtain ⟨new, hnew, hmap⟩ := ih st1 st' h
    exact ⟨⟨m, route⟩ :: new, by rw [hnew, hroute, List.append_assoc]; rfl,
      by rw [List.map_cons, hmap]⟩

/-- Then every line is read as the message of its report. -/
theorem reads_of_foldlM
    (hprint : ∀ st m st', print st m = some st' → ∃ route, st'.2 = st.2 ++ [⟨m, route⟩])
    {lines : List Str} {s : σ} {st : σ × List Report}
    (h : lines.foldlM (fun st line => readMessage line >>= print st) (s, []) = some st) :
    Reads lines (st.2.map Report.message) := by
  obtain ⟨messages, hreads, h⟩ := (foldlM_readMessage lines (s, []) st).mp h
  obtain ⟨new, hnew, rfl⟩ := foldlM_messages hprint messages _ _ h
  rwa [hnew, List.nil_append]

end Files

namespace LinkState

/-- `print_messages`, on the lines of the file. -/
def printFile (fuel : ℕ) (ls : LinkState) (lines : List Str) :
    Option (LinkState × List Report) :=
  lines.foldlM (fun st line => readMessage line >>= printMessage fuel st) (ls, [])

/-- A message gives one report. -/
theorem printMessage_report {fuel : ℕ} {st st' : LinkState × List Report} {m : Message}
    (h : printMessage fuel st m = some st') : ∃ route, st'.2 = st.2 ++ [⟨m, route⟩] := by
  obtain ⟨distance, -, h⟩ := Option.bind_eq_some_iff.mp h
  simp only at h
  split at h
  · obtain ⟨hops, -, h⟩ := Option.bind_eq_some_iff.mp h
    exact ⟨_, congrArg Prod.snd (Option.some.inj h).symm⟩
  · exact ⟨_, congrArg Prod.snd (Option.some.inj h).symm⟩

/-- **A file is printed** as the messages of its lines are. -/
theorem printFile_reads {fuel : ℕ} {ls : LinkState} {lines : List Str}
    {st : LinkState × List Report} : printFile fuel ls lines = some st ↔
      ∃ messages, Reads lines messages ∧ printMessages fuel ls messages = some st :=
  foldlM_readMessage lines (ls, []) st

theorem reads_printFile {fuel : ℕ} {ls : LinkState} {lines : List Str}
    {st : LinkState × List Report} (h : printFile fuel ls lines = some st) :
    Reads lines (st.2.map Report.message) :=
  reads_of_foldlM (fun _ _ _ h => printMessage_report h) h

end LinkState

namespace DistanceVector

/-- `print_messages`, on the lines of the file. -/
def printFile (fuel : ℕ) (dv : DistanceVector) (lines : List Str) :
    Option (DistanceVector × List Report) :=
  lines.foldlM (fun st line => readMessage line >>= printMessage fuel st) (dv, [])

/-- A message gives one report. -/
theorem printMessage_report {fuel : ℕ} {st st' : DistanceVector × List Report} {m : Message}
    (h : printMessage fuel st m = some st') : ∃ route, st'.2 = st.2 ++ [⟨m, route⟩] := by
  obtain ⟨fromNode, -, h⟩ := Option.bind_eq_some_iff.mp h
  simp only at h
  split at h
  · obtain ⟨r, -, h⟩ := Option.bind_eq_some_iff.mp h
    exact ⟨_, congrArg Prod.snd (Option.some.inj h).symm⟩
  · exact ⟨_, congrArg Prod.snd (Option.some.inj h).symm⟩

/-- **A file is printed** as the messages of its lines are. -/
theorem printFile_reads {fuel : ℕ} {dv : DistanceVector} {lines : List Str}
    {st : DistanceVector × List Report} : printFile fuel dv lines = some st ↔
      ∃ messages, Reads lines messages ∧ printMessages fuel dv messages = some st :=
  foldlM_readMessage lines (dv, []) st

theorem reads_printFile {fuel : ℕ} {dv : DistanceVector} {lines : List Str}
    {st : DistanceVector × List Report} (h : printFile fuel dv lines = some st) :
    Reads lines (st.2.map Report.message) :=
  reads_of_foldlM (fun _ _ _ h => printMessage_report h) h

end DistanceVector

/-- One of the programs prints the reports for the lines of a file, or for those before a line at
which it ends. -/
def Prints (lines : List Str) (reports : List Report) : Prop :=
  (∃ fuel ls ls', LinkState.printFile fuel ls lines = some (ls', reports)) ∨
    ∃ fuel dv dv', DistanceVector.printFile fuel dv lines = some (dv', reports)

/-- **Splitting loses nothing**, and what is printed behind a report is the text of its line exactly
if there is no zero in it. -/
theorem split_and_print :
    (∀ s : Str, ∃ pieces, strSplit s = some pieces ∧ [32].intercalate pieces = s.chars ∧
      (∀ w ∈ pieces, 32 ∉ w) ∧ pieces.length = s.chars.count 32 + 1) ∧
    ∀ lines reports, Prints lines reports → List.Forall₂ (fun line r =>
      ∀ a b text, 32 ∉ a → 32 ∉ b → line.chars = a ++ 32 :: (b ++ 32 :: text) →
        (r.text = r.head ++ ofBytes (32 :: text) ↔ 0 ∉ text)) lines reports := by
  refine ⟨fun s => ⟨_, strSplit_eq s, List.intercalate_splitOn 32, mem_splitOn s.chars,
    length_splitOn s.chars⟩, ?_⟩
  rintro lines reports hprints
  have hreads : Reads lines (reports.map Report.message) := by
    rcases hprints with ⟨fuel, ls, ls', h⟩ | ⟨fuel, dv, dv', h⟩
    · exact LinkState.reads_printFile h
    · exact DistanceVector.reads_printFile h
  refine (List.forall₂_map_right_iff.mp hreads).imp fun line r hread a b text ha hb hline => ?_
  exact Report.text_iff hread ha hb hline

/-- A line about `1` and `2`. -/
def sampleLine (text : List UInt8) (h : text.length < 1000) : Str :=
  ⟨ascii "1" ++ 32 :: (ascii "2" ++ 32 :: text), by
    have hlen : (ascii "1").length = 1 ∧ (ascii "2").length = 1 := by decide
    simp only [List.length_append, List.length_cons, hlen, npos]
    omega⟩

/-- After a build with these two nodes the message of the line is reported. -/
theorem prints_sampleLine (text : List UInt8) (h : text.length < 1000) : ∃ words route,
    readMessage (sampleLine text h) = some ⟨1, 2, words⟩ ∧
      Prints [sampleLine text h] [⟨⟨1, 2, words⟩, route⟩] := by
  have h1 : stoi (ascii "1") = some 1 := by decide
  have h2 : stoi (ascii "2") = some 2 := by decide
  have hread := @readMessage_eq (sampleLine text h) (ascii "1") (ascii "2") text (by decide)
    (by decide) rfl
  rw [h1, h2, Option.bind_some, Option.bind_some] at hread
  obtain ⟨words, hread⟩ : ∃ words, readMessage (sampleLine text h) = some ⟨1, 2, words⟩ :=
    ⟨_, hread⟩
  have hreads : Reads [sampleLine text h] [⟨1, 2, words⟩] :=
    List.Forall₂.cons hread List.Forall₂.nil
  have hknows : (Topology.empty.line 1 2 8).Knows ⟨1, 2, words⟩ :=
    ⟨show (1 : ℤ) ∈ (Topology.empty.line 1 2 8).nodes by decide,
      show (2 : ℤ) ∈ (Topology.empty.line 1 2 8).nodes by decide⟩
  obtain ⟨hfits, hready⟩ := LinkState.sampleRouter_ran.inv.2 rfl
  obtain ⟨fuel, ⟨ls, reports⟩, hprint, hmessages, -⟩ :=
    (hready.printMessages_iff (fun s hs => (hfits s hs).2) [⟨1, 2, words⟩]).mpr
      (List.forall_mem_singleton.mpr hknows)
  have hfile := LinkState.printFile_reads.mpr ⟨_, hreads, hprint⟩
  obtain ⟨⟨m, route⟩, rfl, hm⟩ := List.map_eq_singleton_iff.mp hmessages
  obtain rfl : m = _ := hm
  exact ⟨words, route, hread, Or.inl ⟨fuel, _, ls, hfile⟩⟩

/-- A text with spaces around it and between its words. -/
theorem split_and_print_spaces : ∃ r : Report,
    Prints [sampleLine (ascii " a  b ") (by decide)] [r] ∧
      r.text = r.head ++ ofBytes (ascii "  a  b ") := by
  obtain ⟨words, route, -, hprints⟩ := prints_sampleLine (ascii " a  b ") (by decide)
  refine ⟨_, hprints, ?_⟩
  obtain ⟨hline, -⟩ := List.forall₂_cons.mp (split_and_print.2 _ _ hprints)
  exact (hline (ascii "1") (ascii "2") (ascii " a  b ") (by decide) (by decide) rfl).mpr (by decide)

/-- A zero cuts off the rest of a word. -/
theorem zero_cuts : ¬ ∀ lines reports, Prints lines reports → List.Forall₂ (fun line r =>
    ∀ a b text, 32 ∉ a → 32 ∉ b → line.chars = a ++ 32 :: (b ++ 32 :: text) →
      r.text = r.head ++ ofBytes (32 :: text)) lines reports := by
  intro h
  obtain ⟨words, route, hread, hprints⟩ := prints_sampleLine [97, 0, 98] (by decide)
  obtain ⟨hline, -⟩ := List.forall₂_cons.mp (h _ _ hprints)
  have htext := hline (ascii "1") (ascii "2") [97, 0, 98] (by decide) (by decide) rfl
  exact absurd ((Report.text_iff hread (by decide) (by decide) rfl).mp htext) (by decide)

end NetworkingLearning.Routing
