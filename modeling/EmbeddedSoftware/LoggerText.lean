import EmbeddedSoftware.LoggerTrace
import EmbeddedSoftware.PrintedText

/-!
# Reading the UART

Whoever listens to the UART gets one stream of characters. Its lines can be told apart and read back,
and what is read are the records of the producers.
-/

namespace EmbeddedSoftware.LoggerTasks

open PrintedText RunRules

def stampFormat : List Piece :=
  [.text "Sanika Dongre timestamp:".toList, .number, .text " msec\t ".toList]

def ledFormat : List Piece := [.text "LED TASK TOGGLE TOTAL is ".toList, .number, .text "\n\r".toList]

def tempFormat : List Piece :=
  [.text "TEMP TASK Temp: ".toList, .number, .text " C, ".toList, .number, .text "F, ".toList, .number,
    .text "K\n\r".toList]

theorem separated_stampFormat : separated stampFormat = true := by decide

theorem separated_ledFormat : separated ledFormat = true := by decide +kernel

theorem separated_tempFormat : separated tempFormat = true := by decide +kernel

theorem sprintf_stampFormat (n : ℤ) : sprintf stampFormat [n] =
    "Sanika Dongre timestamp:".toList ++ (decimal n ++ " msec\t ".toList) := by
  simp only [stampFormat, sprintf, List.append_nil]

/-- The literals of the source are cut behind the tabulator. -/
theorem LedToggle.toList_line (r : LedToggle) : r.line.toList =
    sprintf stampFormat [r.time1.toInt] ++ sprintf ledFormat [r.ledToggleCount.toInt] := by
  have htext : " msec\t LED TASK TOGGLE TOTAL is " = " msec\t " ++ "LED TASK TOGGLE TOTAL is " := by
    decide +kernel
  have hline : r.line = "Sanika Dongre timestamp:" ++ toString r.time1.toInt ++
      (" msec\t " ++ "LED TASK TOGGLE TOTAL is ") ++ toString r.ledToggleCount.toInt ++ "\n\r" :=
    congrArg (fun text => "Sanika Dongre timestamp:" ++ toString r.time1.toInt ++ text ++
      toString r.ledToggleCount.toInt ++ "\n\r") htext
  rw [hline, sprintf_stampFormat]
  simp only [ledFormat, sprintf, String.toList_append, decimal, List.append_assoc, List.append_nil]

theorem Temp.toList_line (r : Temp) : r.line.toList =
    sprintf stampFormat [r.time1.toInt] ++
      sprintf tempFormat [r.temp.toInt, ((r.temp * 9).sdiv 5).toInt, (r.temp + 273).toInt] := by
  have htext : " msec\t TEMP TASK Temp: " = " msec\t " ++ "TEMP TASK Temp: " := by decide +kernel
  have hline : r.line = "Sanika Dongre timestamp:" ++ toString r.time1.toInt ++
      (" msec\t " ++ "TEMP TASK Temp: ") ++ toString r.temp.toInt ++ " C, " ++
      toString ((r.temp * 9).sdiv 5).toInt ++ "F, " ++ toString (r.temp + 273).toInt ++ "K\n\r" :=
    congrArg (fun text => "Sanika Dongre timestamp:" ++ toString r.time1.toInt ++ text ++
      toString r.temp.toInt ++ " C, " ++ toString ((r.temp * 9).sdiv 5).toInt ++ "F, " ++
      toString (r.temp + 273).toInt ++ "K\n\r") htext
  rw [hline, sprintf_stampFormat]
  simp only [tempFormat, sprintf, String.toList_append, decimal, List.append_assoc, List.append_nil]

/-- A reader of the UART: the time, and then what is behind one of the two labels. -/
def readRecord (l : List Char) : Option (Record × List Char) := do
  let (stamps, rest) ← sscanf stampFormat l
  match stamps, sscanf ledFormat rest, sscanf tempFormat rest with
  | [time1], some ([count], rest), _ => some (.led ⟨BitVec.ofInt 32 time1, BitVec.ofInt 32 count⟩, rest)
  | [time1], none, some (celsius :: _, rest) =>
    some (.temp ⟨BitVec.ofInt 32 celsius, BitVec.ofInt 32 time1⟩, rest)
  | _, _, _ => none

/-- The labels differ in their first character. -/
theorem sscanf_ledFormat_temp (ns : List ℤ) (rest : List Char) :
    sscanf ledFormat (sprintf tempFormat ns ++ rest) = none := by
  have hled : "LED TASK TOGGLE TOTAL is ".toList.head? = some 'L' := by decide +kernel
  have htemp : "TEMP TASK Temp: ".toList.head? = some 'T' := by decide +kernel
  have hhead : (sprintf tempFormat ns ++ rest).head? = some 'T' := by
    rw [tempFormat, sprintf, List.append_assoc, List.head?_append, htemp, Option.some_or]
  rw [ledFormat, sscanf, readText_eq_none hled hhead (by decide), Option.bind_none]

theorem reads_readRecord : Reads readRecord fun r => r.line.toList := by
  intro r rest
  cases r with
  | led r =>
    change readRecord (r.line.toList ++ rest) = _
    rw [LedToggle.toList_line, readRecord, List.append_assoc,
      sscanf_sprintf separated_stampFormat rfl]
    simp only [Option.bind_eq_bind, Option.bind_some]
    rw [sscanf_sprintf separated_ledFormat rfl]
    simp only [BitVec.ofInt_toInt]
  | temp r =>
    change readRecord (r.line.toList ++ rest) = _
    rw [Temp.toList_line, readRecord, List.append_assoc, sscanf_sprintf separated_stampFormat rfl]
    simp only [Option.bind_eq_bind, Option.bind_some]
    rw [sscanf_ledFormat_temp, sscanf_sprintf separated_tempFormat rfl]
    simp only [BitVec.ofInt_toInt]

theorem readRecord_nil : readRecord [] = none := by decide +kernel

/-- In every state that the tasks can reach, whoever has got the characters of the UART can read from
them the records behind all its lines, each with its kind, its time and its value. -/
theorem uart_reads_back {s : State} (h : Reachable s) {fuel : ℕ} (hfuel : s.uart.length ≤ fuel) :
    readAll readRecord fuel (s.uart.flatMap String.toList) = some s.logged := by
  rw [State.uart_eq_logged h, List.flatMap_map]
  apply readAll_flatMap reads_readRecord readRecord_nil
  rw [State.logged]
  exact (List.length_take_le _ _).trans hfuel

/-- A round of the LED task, a round of the logger, and the text is read. -/
theorem uart_reads_back_one_line :
    ∃ s, (initial ⟨0, 0⟩ ⟨0, 0⟩ ⟨0, 0⟩ ⟨0, 0⟩ "").execAll
        (List.replicate 10 .led ++ List.replicate 8 .log) = some s ∧ s.logged = [.led ⟨0, 1⟩] ∧
      readAll readRecord 1 (s.uart.flatMap String.toList) = some [.led ⟨0, 1⟩] := by
  obtain ⟨s, hs, hlogged, hlength⟩ : ∃ s, (initial ⟨0, 0⟩ ⟨0, 0⟩ ⟨0, 0⟩ ⟨0, 0⟩ "").execAll
      (List.replicate 10 .led ++ List.replicate 8 .log) = some s ∧ s.logged = [.led ⟨0, 1⟩] ∧
        s.uart.length = 1 := ⟨_, rfl, rfl, rfl⟩
  have hread := uart_reads_back ⟨⟨0, 0⟩, ⟨0, 0⟩, ⟨0, 0⟩, ⟨0, 0⟩, "", run_of_execAll _ hs⟩ hlength.le
  rw [hlogged] at hread
  exact ⟨s, hs, hlogged, hread⟩

end EmbeddedSoftware.LoggerTasks
