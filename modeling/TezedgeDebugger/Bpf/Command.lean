import Mathlib.Data.Nat.Digits

/-!
# Commands to the BPF module: `Display` and `FromStr` of `Command`

`bpf-common/src/facade.rs`. `BpfModuleClient::send_command` writes a command with its `Display`
implementation; the module reads it back with `FromStr`, which splits on single spaces and parses
the numbers with `str::parse`. Texts are lists of characters. The integer parser is that of
`core::num` (`from_str_radix` with radix 10): an optional `+`, then digits, each step checked
against the type's bound, and the `ParseIntError` messages the source's error strings embed.
Decimal rendering is Mathlib's `Nat.digits`, most significant digit first.

`fromStr_fmt`: parsing what `Display` writes gives the command back, for every port, pid and fd.
`fromStr_eq_ok`: the texts `FromStr` accepts are exactly those whose words start with a command's
name and one word per number that `str::parse` reads as that number (`parseUnsigned_eq_ok`: an
optional `+`, any number of zeros, then the decimal text); further words are ignored.
`sendCommand_lines`: commands sent one after another by `send_command` come back in order by cutting
the socket's text at its newlines.
-/

namespace TezedgeDebugger.Bpf

inductive Command where
  | watchPort (port : UInt16)
  | ignoreConnection (pid fd : UInt32)
  | fetchCounter
  deriving DecidableEq, Repr

/-- `core::num::IntErrorKind`. -/
inductive IntErrorKind where
  | empty | invalidDigit | posOverflow | negOverflow | zero
  deriving DecidableEq, Repr

/-- `Display for ParseIntError`. -/
def IntErrorKind.description : IntErrorKind → List Char
  | .empty => "cannot parse integer from empty string".toList
  | .invalidDigit => "invalid digit found in string".toList
  | .posOverflow => "number too large to fit in target type".toList
  | .negOverflow => "number too small to fit in target type".toList
  | .zero => "number would be zero for non-zero type".toList

/-- `char::to_digit(10)`. -/
def decimalDigit (c : Char) : Option Nat :=
  if c.isDigit then some (c.toNat - '0'.toNat) else none

/-- The digit loop of `from_str_radix`: the digit, then `checked_mul` and `checked_add` below
`bound`. -/
def accumulateDigits (bound : Nat) : Nat → List Char → Except IntErrorKind Nat
  | result, [] => .ok result
  | result, c :: rest =>
    match decimalDigit c with
    | none => .error .invalidDigit
    | some digit =>
      if bound ≤ result * 10 then .error .posOverflow
      else if bound ≤ result * 10 + digit then .error .posOverflow
      else accumulateDigits bound (result * 10 + digit) rest

/-- `str::parse` for an unsigned integer type with values below `bound`. -/
def parseUnsigned (bound : Nat) (src : List Char) : Except IntErrorKind Nat :=
  match src with
  | [] => .error .empty
  | first :: rest =>
    if (first = '+' ∨ first = '-') ∧ rest = [] then .error .invalidDigit
    else if first = '+' then accumulateDigits bound 0 rest
    else accumulateDigits bound 0 src

/-- The decimal digits of `n`, most significant first; zero is the one digit `0`. -/
def decimalDigits (n : Nat) : List Nat :=
  if n = 0 then [0] else (Nat.digits 10 n).reverse

/-- `Display` of an unsigned integer. -/
def decimal (n : Nat) : List Char := (decimalDigits n).map Nat.digitChar

/-- `impl Display for Command`. -/
def Command.fmt : Command → List Char
  | .watchPort port => "watch_port ".toList ++ decimal port.toNat
  | .ignoreConnection pid fd => "ignore_connection ".toList ++ decimal pid.toNat ++ ' ' :: decimal fd.toNat
  | .fetchCounter => "fetch_counter".toList

/-- `impl FromStr for Command`: `words.next()` is the head of `s.split(' ')`. -/
def Command.fromStr (s : List Char) : Except (List Char) Command :=
  match s.splitOn ' ' with
  | word :: words =>
    if word = "watch_port".toList then
      match words with
      | [] => .error "bad port".toList
      | port :: _ =>
        match parseUnsigned (2 ^ 16) port with
        | .error e => .error ("failed to parse port: ".toList ++ e.description)
        | .ok port => .ok (.watchPort (UInt16.ofNat port))
    else if word = "ignore_connection".toList then
      match words with
      | [] => .error "bad pid".toList
      | pid :: words =>
        match parseUnsigned (2 ^ 32) pid with
        | .error e => .error ("failed to parse pid: ".toList ++ e.description)
        | .ok pid =>
          match words with
          | [] => .error "bad fd".toList
          | fd :: _ =>
            match parseUnsigned (2 ^ 32) fd with
            | .error e => .error ("failed to parse fd: ".toList ++ e.description)
            | .ok fd => .ok (.ignoreConnection (UInt32.ofNat pid) (UInt32.ofNat fd))
    else if word = "fetch_counter".toList then .ok .fetchCounter
    else .error "unexpected command".toList
  | [] => .error "unexpected command".toList

theorem decimalDigit_digitChar {d : Nat} (small : d < 10) : decimalDigit (Nat.digitChar d) = some d := by
  interval_cases d <;> rfl

theorem digitChar_ne_space {d : Nat} (small : d < 10) : Nat.digitChar d ≠ ' ' := by
  interval_cases d <;> decide

theorem foldl_digits_ge (digits : List Nat) (result : Nat) :
    result ≤ digits.foldl (fun result digit => result * 10 + digit) result := by
  induction digits generalizing result with
  | nil => exact Nat.le_refl _
  | cons digit digits ih => exact Nat.le_trans (show result ≤ result * 10 + digit by omega) (ih _)

/-- The loop reads digits most significant first; no check fails while the final value fits. -/
theorem accumulateDigits_digitChars (bound : Nat) (digits : List Nat) (small : ∀ d ∈ digits, d < 10)
    (result : Nat) (fits : digits.foldl (fun result digit => result * 10 + digit) result < bound) :
    accumulateDigits bound result (digits.map Nat.digitChar) =
      .ok (digits.foldl (fun result digit => result * 10 + digit) result) := by
  induction digits generalizing result with
  | nil => rfl
  | cons digit digits ih =>
    have step := foldl_digits_ge digits (result * 10 + digit)
    simp only [List.foldl_cons] at fits
    simp only [List.map_cons, accumulateDigits,
      decimalDigit_digitChar (small digit (List.mem_cons_self _ _))]
    rw [if_neg (by omega), if_neg (by omega)]
    exact ih (fun d member => small d (List.mem_cons_of_mem _ member)) _ fits

theorem decimalDigits_lt (n : Nat) : ∀ d ∈ decimalDigits n, d < 10 := by
  unfold decimalDigits
  split
  · simp
  · exact fun d member => Nat.digits_lt_base (by decide) (List.mem_reverse.mp member)

theorem foldl_decimalDigits (n : Nat) :
    (decimalDigits n).foldl (fun result digit => result * 10 + digit) 0 = n := by
  unfold decimalDigits
  split
  · simp [*]
  · conv => rhs; rw [← Nat.ofDigits_digits 10 n]
    rw [List.foldl_reverse]
    induction Nat.digits 10 n with
    | nil => rfl
    | cons digit digits ih => simp only [List.foldr_cons, ih, Nat.ofDigits_cons]; ring

/-- The first character is a digit, so `str::parse` never takes it for a sign. -/
theorem decimalDigits_cons (n : Nat) : ∃ first rest, decimalDigits n = first :: rest := by
  unfold decimalDigits
  split
  · exact ⟨0, [], rfl⟩
  · rename_i nonzero
    cases h : (Nat.digits 10 n).reverse with
    | nil => simp_all [Nat.digits_eq_nil_iff_eq_zero]
    | cons first rest => exact ⟨first, rest, rfl⟩

theorem space_not_mem_decimal (n : Nat) : ' ' ∉ decimal n := by
  simp only [decimal, List.mem_map, not_exists, not_and]
  exact fun d member => digitChar_ne_space (decimalDigits_lt n d member)

/-- `str::parse` reads back what `Display` wrote, for every value of the type. -/
theorem parseUnsigned_decimal {bound n : Nat} (fits : n < bound) :
    parseUnsigned bound (decimal n) = .ok n := by
  have loop := accumulateDigits_digitChars bound _ (decimalDigits_lt n) 0
    (by rw [foldl_decimalDigits]; exact fits)
  rw [foldl_decimalDigits] at loop
  obtain ⟨first, rest, split⟩ := decimalDigits_cons n
  have small := decimalDigits_lt n first (by simp [split])
  have notSign : Nat.digitChar first ≠ '+' ∧ Nat.digitChar first ≠ '-' := by
    interval_cases first <;> decide
  rw [split] at loop
  simp only [decimal, split, List.map_cons, parseUnsigned, notSign, false_or, false_and, if_false]
  exact loop

theorem ofNat_toNat_u16 (x : UInt16) : UInt16.ofNat x.toNat = x := by
  apply UInt16.eq_of_toBitVec_eq
  simp [UInt16.ofNat, UInt16.toNat]

theorem ofNat_toNat_u32 (x : UInt32) : UInt32.ofNat x.toNat = x := by
  apply UInt32.eq_of_toBitVec_eq
  simp [UInt32.ofNat, UInt32.toNat]

/-- Parsing the text `Display` writes gives the command back, for every port, pid and fd. -/
theorem fromStr_fmt (command : Command) : Command.fromStr command.fmt = .ok command := by
  cases command with
  | watchPort port =>
    have text : (Command.watchPort port).fmt =
        [' '].intercalate ["watch_port".toList, decimal port.toNat] := by
      simp [Command.fmt, List.intercalate]
    have spaceFree : ∀ word ∈ ["watch_port".toList, decimal port.toNat], ' ' ∉ word := by
      simp [space_not_mem_decimal]
    rw [Command.fromStr, text, List.splitOn_intercalate _ _ spaceFree (by simp)]
    simp [parseUnsigned_decimal (UInt16.toNat_lt_size port), ofNat_toNat_u16]
  | ignoreConnection pid fd =>
    have text : (Command.ignoreConnection pid fd).fmt =
        [' '].intercalate ["ignore_connection".toList, decimal pid.toNat, decimal fd.toNat] := by
      simp [Command.fmt, List.intercalate]
    have spaceFree : ∀ word ∈ ["ignore_connection".toList, decimal pid.toNat, decimal fd.toNat],
        ' ' ∉ word := by
      simp [space_not_mem_decimal]
    rw [Command.fromStr, text, List.splitOn_intercalate _ _ spaceFree (by simp)]
    simp [parseUnsigned_decimal (UInt32.toNat_lt_size pid), parseUnsigned_decimal (UInt32.toNat_lt_size fd),
      ofNat_toNat_u32]
  | fetchCounter => rfl

/-! ## What `from_str` accepts -/

/-- `to_digit(10)` gives a digit only for that digit's own character. -/
theorem digitChar_of_decimalDigit {c : Char} {d : Nat} (found : decimalDigit c = some d) :
    d < 10 ∧ Nat.digitChar d = c := by
  unfold decimalDigit at found
  split at found
  · rename_i digit
    simp only [Option.some.injEq] at found
    subst found
    simp only [Char.isDigit, Bool.and_eq_true, decide_eq_true_eq] at digit
    have low : 48 ≤ c.toNat := digit.1
    have high : c.toNat ≤ 57 := digit.2
    obtain ⟨k, small, code⟩ : ∃ k, k < 10 ∧ c.toNat = 48 + k := ⟨c.toNat - 48, by omega, by omega⟩
    rw [show c.toNat - '0'.toNat = k by rw [code, show '0'.toNat = 48 from rfl]; omega]
    refine ⟨small, Char.eq_of_val_eq (UInt32.eq_of_toBitVec_eq (BitVec.eq_of_toNat_eq ?_))⟩
    show (Nat.digitChar k).toNat = c.toNat
    rw [code]
    interval_cases k <;> rfl
  · cases found

/-- The digit loop succeeds exactly on a text of decimal digits, with the value they give, which is
below the bound unless there are no digits at all. -/
theorem accumulateDigits_eq_ok {bound result n : Nat} {src : List Char} :
    accumulateDigits bound result src = .ok n ↔
      ∃ digits, src = digits.map Nat.digitChar ∧ (∀ d ∈ digits, d < 10) ∧
        n = digits.foldl (fun result digit => result * 10 + digit) result ∧ (digits = [] ∨ n < bound) := by
  induction src generalizing result with
  | nil =>
    constructor
    · intro done
      cases done
      exact ⟨[], rfl, by simp, rfl, .inl rfl⟩
    · rintro ⟨digits, text, -, rfl, -⟩
      cases List.map_eq_nil_iff.mp text.symm
      rfl
  | cons c rest ih =>
    constructor
    · intro done
      simp only [accumulateDigits] at done
      split at done
      · cases done
      rename_i digit found
      split_ifs at done
      obtain ⟨digits, text, small, rfl, fits⟩ := ih.mp done
      obtain ⟨isDigit, rfl⟩ := digitChar_of_decimalDigit found
      refine ⟨digit :: digits, by simp [text], ?_, rfl, .inr ?_⟩
      · simpa [isDigit] using small
      · rcases fits with rfl | fits
        · simp only [List.foldl_nil]
          omega
        · exact fits
    · rintro ⟨_ | ⟨digit, digits⟩, text, small, rfl, fits⟩
      · cases text
      simp only [List.map_cons, List.cons.injEq] at text
      obtain ⟨rfl, rfl⟩ := text
      rcases fits with nonempty | fits
      · cases nonempty
      exact accumulateDigits_digitChars bound (digit :: digits) small result fits

theorem foldl_digits_eq_ofDigits (digits : List Nat) :
    digits.foldl (fun result digit => result * 10 + digit) 0 = Nat.ofDigits 10 digits.reverse := by
  induction digits using List.reverseRecOn with
  | nil => rfl
  | append_singleton digits digit ih =>
    rw [List.foldl_append, List.foldl_cons, List.foldl_nil, ih, List.reverse_append, List.reverse_singleton,
      List.singleton_append, Nat.ofDigits_cons]
    ring

/-- Digits with no leading zero are the decimal digits of their value. -/
theorem decimalDigits_foldl {digit : Nat} {digits : List Nat} (small : ∀ d ∈ digit :: digits, d < 10)
    (leading : digit ≠ 0) :
    decimalDigits ((digit :: digits).foldl (fun result digit => result * 10 + digit) 0) = digit :: digits := by
  have back := Nat.digits_ofDigits 10 (by decide) (digit :: digits).reverse
    (fun d member => small d (List.mem_reverse.mp member)) (by simpa using leading)
  rw [← foldl_digits_eq_ofDigits] at back
  unfold decimalDigits
  rw [if_neg, back, List.reverse_reverse]
  intro zero
  rw [zero, Nat.digits_zero] at back
  simp at back

/-- A nonempty digit list is zeros followed by the decimal digits of its value. -/
theorem eq_replicate_append_decimalDigits {digits : List Nat} (small : ∀ d ∈ digits, d < 10)
    (nonempty : digits ≠ []) :
    ∃ zeros, digits = List.replicate zeros 0 ++ decimalDigits (digits.foldl (fun result digit => result * 10 + digit) 0) := by
  induction digits with
  | nil => cases nonempty rfl
  | cons digit digits ih =>
    by_cases leading : digit = 0
    · subst leading
      rcases eq_or_ne digits [] with rfl | more
      · exact ⟨0, rfl⟩
      obtain ⟨zeros, split⟩ := ih (fun d member => small d (List.mem_cons_of_mem _ member)) more
      refine ⟨zeros + 1, ?_⟩
      rw [List.foldl_cons, Nat.zero_mul, Nat.zero_add, List.replicate_succ, List.cons_append, ← split]
    · exact ⟨0, (decimalDigits_foldl small leading).symm⟩

theorem foldl_replicate_zero (zeros : Nat) (digits : List Nat) :
    (List.replicate zeros 0 ++ digits).foldl (fun result digit => result * 10 + digit) 0 =
      digits.foldl (fun result digit => result * 10 + digit) 0 := by
  induction zeros with
  | zero => rfl
  | succ zeros ih => rwa [List.replicate_succ, List.cons_append, List.foldl_cons]

theorem digitChar_not_sign {d : Nat} (small : d < 10) : Nat.digitChar d ≠ '+' ∧ Nat.digitChar d ≠ '-' := by
  interval_cases d <;> decide

/-- A word `str::parse` reads `value` from: an optional `+`, any number of zeros, then the decimal
text of `value`. -/
def NumberWord (value : Nat) (word : List Char) : Prop :=
  ∃ sign zeros, (sign = [] ∨ sign = ['+']) ∧ word = sign ++ List.replicate zeros '0' ++ decimal value

/-- `str::parse` accepts exactly the words of the values below the bound. -/
theorem parseUnsigned_eq_ok {bound n : Nat} {src : List Char} :
    parseUnsigned bound src = .ok n ↔ n < bound ∧ NumberWord n src := by
  constructor
  · intro parsed
    obtain ⟨sign, body, signed, rfl, nonempty, loop⟩ : ∃ sign body, (sign = [] ∨ sign = ['+']) ∧ src = sign ++ body ∧
        body ≠ [] ∧ accumulateDigits bound 0 body = .ok n := by
      unfold parseUnsigned at parsed
      split at parsed
      · cases parsed
      rename_i first rest
      split_ifs at parsed with lone plus
      · exact ⟨['+'], rest, .inr rfl, by rw [plus]; rfl, fun empty => lone ⟨.inl plus, empty⟩, parsed⟩
      · exact ⟨[], first :: rest, .inl rfl, rfl, List.cons_ne_nil _ _, parsed⟩
    obtain ⟨digits, rfl, small, rfl, fits⟩ := accumulateDigits_eq_ok.mp loop
    have some : digits ≠ [] := by
      rintro rfl
      exact nonempty rfl
    obtain ⟨zeros, split⟩ := eq_replicate_append_decimalDigits small some
    refine ⟨fits.resolve_left some, sign, zeros, signed, ?_⟩
    conv_lhs => rw [split]
    simp only [decimal, List.map_append, List.map_replicate, List.append_assoc]
    rfl
  · rintro ⟨fits, sign, zeros, signed, rfl⟩
    obtain ⟨first, rest, split⟩ := decimalDigits_cons n
    have small : ∀ d ∈ List.replicate zeros 0 ++ decimalDigits n, d < 10 := fun d member => by
      rcases List.mem_append.mp member with zero | digit
      · rw [List.eq_of_mem_replicate zero]
        decide
      · exact decimalDigits_lt n d digit
    have loop : accumulateDigits bound 0 ((List.replicate zeros 0 ++ decimalDigits n).map Nat.digitChar) = .ok n :=
      accumulateDigits_eq_ok.mpr ⟨_, rfl, small, by rw [foldl_replicate_zero, foldl_decimalDigits], .inr fits⟩
    have text : List.replicate zeros '0' ++ decimal n = (List.replicate zeros 0 ++ decimalDigits n).map Nat.digitChar := by
      simp only [decimal, List.map_append, List.map_replicate]
      rfl
    obtain ⟨digit, digits, cut⟩ : ∃ digit digits, List.replicate zeros 0 ++ decimalDigits n = digit :: digits := by
      rw [split]
      cases zeros <;> exact ⟨_, _, rfl⟩
    have notSign := digitChar_not_sign (small digit (by simp [cut]))
    rw [cut] at loop
    rw [List.append_assoc, text, cut]
    rcases signed with rfl | rfl
    · simpa [parseUnsigned, notSign] using loop
    · simpa [parseUnsigned] using loop

/-- The words `from_str` reads a command from: its name, then its numbers. -/
def Command.name : Command → List Char
  | .watchPort _ => "watch_port".toList
  | .ignoreConnection _ _ => "ignore_connection".toList
  | .fetchCounter => "fetch_counter".toList

def Command.fields : Command → List Nat
  | .watchPort port => [port.toNat]
  | .ignoreConnection pid fd => [pid.toNat, fd.toNat]
  | .fetchCounter => []

/-- `from_str` accepts exactly the texts whose space-separated words start with a command's name
and, for each of its numbers, a word `str::parse` reads as that number; any further words are
ignored. -/
theorem fromStr_eq_ok {s : List Char} {command : Command} :
    Command.fromStr s = .ok command ↔
      ∃ words rest, s.splitOn ' ' = command.name :: words ++ rest ∧ List.Forall₂ NumberWord command.fields words := by
  unfold Command.fromStr
  generalize s.splitOn ' ' = text
  constructor
  · intro parsed
    split at parsed
    · rename_i word words
      split_ifs at parsed with watch ignore fetch
      · split at parsed
        · cases parsed
        rename_i port more
        split at parsed
        · cases parsed
        rename_i value read
        cases parsed
        obtain ⟨fits, numeric⟩ := parseUnsigned_eq_ok.mp read
        refine ⟨[port], more, by rw [watch]; rfl, .cons ?_ .nil⟩
        rwa [UInt16.toNat_ofNat_of_lt fits]
      · split at parsed
        · cases parsed
        rename_i pid more
        split at parsed
        · cases parsed
        rename_i pidValue pidRead
        split at parsed
        · cases parsed
        rename_i fd more
        split at parsed
        · cases parsed
        rename_i fdValue fdRead
        cases parsed
        obtain ⟨pidFits, pidNumeric⟩ := parseUnsigned_eq_ok.mp pidRead
        obtain ⟨fdFits, fdNumeric⟩ := parseUnsigned_eq_ok.mp fdRead
        refine ⟨[pid, fd], more, by rw [ignore]; rfl, .cons ?_ (.cons ?_ .nil)⟩
        · rwa [UInt32.toNat_ofNat_of_lt pidFits]
        · rwa [UInt32.toNat_ofNat_of_lt fdFits]
      · cases parsed
        exact ⟨[], words, by rw [fetch]; rfl, .nil⟩
    · cases parsed
  · rintro ⟨words, rest, rfl, fields⟩
    cases command with
    | watchPort port =>
      obtain ⟨word, rfl, numeric⟩ : ∃ word, words = [word] ∧ NumberWord port.toNat word := by
        cases fields with
        | cons numeric more => cases more; exact ⟨_, rfl, numeric⟩
      simp [Command.name, parseUnsigned_eq_ok.mpr ⟨UInt16.toNat_lt_size port, numeric⟩, ofNat_toNat_u16]
    | ignoreConnection pid fd =>
      obtain ⟨pidWord, fdWord, rfl, pidNumeric, fdNumeric⟩ :
          ∃ pidWord fdWord, words = [pidWord, fdWord] ∧ NumberWord pid.toNat pidWord ∧ NumberWord fd.toNat fdWord := by
        cases fields with
        | cons pidNumeric more => cases more with
          | cons fdNumeric more => cases more; exact ⟨_, _, rfl, pidNumeric, fdNumeric⟩
      simp [Command.name, parseUnsigned_eq_ok.mpr ⟨UInt32.toNat_lt_size pid, pidNumeric⟩,
        parseUnsigned_eq_ok.mpr ⟨UInt32.toNat_lt_size fd, fdNumeric⟩, ofNat_toNat_u32]
    | fetchCounter =>
      cases fields
      simp [Command.name]

example : Command.fromStr "watch_port +0080 extra".toList = .ok (.watchPort 80) := by rfl

/-! ## What `send_command` writes -/

/-- A `BpfModuleClient` as what it has written to its socket; the `UnixStream` itself and the ring
buffer the client was created with are left out. -/
structure BpfModuleClient where
  written : List Char

/-- `send_command`: `write_fmt(format_args!("{}\n", cmd))` appends the command's `Display` text and
a newline to what was written before. -/
def BpfModuleClient.sendCommand (client : BpfModuleClient) (cmd : Command) : BpfModuleClient :=
  ⟨client.written ++ cmd.fmt ++ ['\n']⟩

theorem not_mem_decimal {c : Char} (other : ∀ d < 10, Nat.digitChar d ≠ c) (n : Nat) : c ∉ decimal n := by
  simp only [decimal, List.mem_map, not_exists, not_and]
  exact fun d member => other d (decimalDigits_lt n d member)

/-- No `Display` text holds a newline. -/
theorem newline_not_mem_fmt (cmd : Command) : '\n' ∉ cmd.fmt := by
  have digits : ∀ n, '\n' ∉ decimal n := not_mem_decimal fun d small => by interval_cases d <;> decide
  cases cmd <;> simp [Command.fmt, digits]

theorem foldl_sendCommand_written (client : BpfModuleClient) (commands : List Command) :
    (commands.foldl BpfModuleClient.sendCommand client).written =
      client.written ++ commands.flatMap fun cmd => cmd.fmt ++ ['\n'] := by
  induction commands generalizing client with
  | nil => simp
  | cons cmd commands ih => simp [ih, BpfModuleClient.sendCommand]

/-- Commands sent one after another over a fresh connection come back from the socket in order by
cutting what was written at its newlines: each line is one command's `Display` text, and nothing
follows the last newline. -/
theorem sendCommand_lines (commands : List Command) :
    (commands.foldl BpfModuleClient.sendCommand ⟨[]⟩).written.splitOn '\n' = commands.map Command.fmt ++ [[]] := by
  rw [foldl_sendCommand_written, List.nil_append]
  induction commands with
  | nil => rfl
  | cons cmd commands ih =>
    have clean : ∀ c ∈ cmd.fmt, ¬(c == '\n') = true := fun c member same =>
      newline_not_mem_fmt cmd (beq_iff_eq.mp same ▸ member)
    rw [List.flatMap_cons, List.append_assoc, List.singleton_append, List.splitOn,
      List.splitOnP_first (· == '\n') cmd.fmt clean '\n' (beq_self_eq_true _), ← List.splitOn, ih]
    rfl

end TezedgeDebugger.Bpf
