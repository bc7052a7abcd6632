import CtpTrade.Library.FixedCodec
import CtpTrade.Platform

/-!
# The archive of bars: `CSaveData`

A strategy appends the memory image of every bar it takes to a file. The records
are modelled by what is in memory: a `double` by its bit pattern, a `char[n]`
field by all of its bytes, and the gap that aligns the bar by the bytes it
happens to hold.

The stream is opened without `std::ios_base::binary`, so it is a text stream.
-/

namespace CtpTrade

/-- A `candle_bar` as it lies in memory, with the doubles and the sizes as the bits they
consist of. -/
structure CandleBarMemory where
  barName : Vector UInt8 31
  barEcg : Vector UInt8 9
  tradeDay : UInt64
  tradeTime : UInt64
  openPrice : UInt64
  highPrice : UInt64
  lowPrice : UInt64
  closePrice : UInt64
  changePoint : UInt64
  changePercent : UInt64
  volumeSize : UInt64
  deriving DecidableEq

/-- An `archive_data` as it lies in memory, with the padding bytes that the compiler
puts in front of the bar. They are written to the file too. -/
structure ArchiveData where
  period : Int32
  padding : Vector UInt8 4
  data : CandleBarMemory
  deriving DecidableEq

namespace CandleBarMemory

open FixedCodec in
/-- The layout of the record. Its members need no gaps: the two names have forty
bytes together. -/
def codec : FixedCodec CandleBarMemory :=
  ((bytes 31).pair <| (bytes 9).pair <| uint64.pair <| uint64.pair <| uint64.pair <|
    uint64.pair <| uint64.pair <| uint64.pair <| uint64.pair <| uint64.pair uint64).rename
    (fun (name, ecg, day, time, opening, high, low, close, point, percent, volume) =>
      ⟨name, ecg, day, time, opening, high, low, close, point, percent, volume⟩)
    (fun bar => (bar.barName, bar.barEcg, bar.tradeDay, bar.tradeTime, bar.openPrice,
      bar.highPrice, bar.lowPrice, bar.closePrice, bar.changePoint, bar.changePercent,
      bar.volumeSize))
    fun _ => rfl

end CandleBarMemory

namespace ArchiveData

open FixedCodec in
def codec : FixedCodec ArchiveData :=
  (int32.pair <| (bytes 4).pair CandleBarMemory.codec).rename
    (fun (period, padding, data) => ⟨period, padding, data⟩)
    (fun record => (record.period, record.padding, record.data))
    fun _ => rfl

/-- `sizeof(archive_data)` -/
def sizeofArchiveData : Nat := codec.size

example : sizeofArchiveData = 120 := rfl

end ArchiveData

/-- The flags of `std::ios_base` that the program names. -/
structure Openmode where
  input : Bool := false
  output : Bool := false
  app : Bool := false
  binary : Bool := false
  deriving DecidableEq

/-- The `std::fstream` of the archive: the file it has open with its flags, and the
bytes it has appended to it. -/
structure Fstream where
  file : Option (StdString × Openmode) := none
  appended : List UInt8 := []

def lineFeed : UInt8 := 0x0a
def carriageReturn : UInt8 := 0x0d

/-- What a text stream writes for a byte: a line feed gets a carriage return in front of
it. -/
def textByte (b : UInt8) : List UInt8 :=
  if b = lineFeed then [carriageReturn, lineFeed] else [b]

namespace Fstream

def openFile (path : StdString) (mode : Openmode) : Fstream := { file := some (path, mode) }

def write (stream : Fstream) (bytes : List UInt8) : Fstream :=
  match stream.file with
  | none => stream
  | some (_, mode) =>
    { stream with
      appended := stream.appended ++ if mode.binary then bytes else bytes.flatMap textByte }

end Fstream

/-- The class with the directory of its archives and its open file. -/
structure CSaveData where
  rootDir : StdString := []
  saveFile : Fstream := {}

namespace CSaveData

def setRootDir (saved : CSaveData) (root : StdString) : CSaveData := { saved with rootDir := root }

/-- `date_day` is the day of the local time as `yyyymmdd`. A text that does not fit
into `data_file` ends the program in `sprintf_s`; `open` itself succeeds. -/
def openSaveData (saved : CSaveData) (stg : StdString) (dateDay : Nat) : Option CSaveData :=
  let dataFile := '\\' :: stg ++ '_' :: Nat.toDigits 10 dateDay
  if dataFile.length < 256 then
    some { saved with
      saveFile := Fstream.openFile (saved.rootDir ++ dataFile)
        { input := true, output := true, app := true } }
  else none

def writeSaveData (saved : CSaveData) (data : ArchiveData) : CSaveData :=
  { saved with saveFile := saved.saveFile.write (ArchiveData.codec.encode data) }

/-- A sequence of `write_save_data` calls. -/
def writeAll (saved : CSaveData) (records : List ArchiveData) : CSaveData :=
  records.foldl writeSaveData saved

end CSaveData

/-- What a save appends to the file. The bytes are the images of the records in order,
and each record can be read back at the offset of its own number times the size of a
record. -/
structure FixedSizeRecords (records : List ArchiveData) (appended : List UInt8) : Prop where
  concatenation : appended = records.flatMap ArchiveData.codec.encode
  readBack : ∀ i record, records[i]? = some record →
    ArchiveData.codec.recordAt appended i = record

/-- A text stream writes one byte more for each line feed. -/
theorem length_flatMap_textByte (bytes : List UInt8) :
    (bytes.flatMap textByte).length = bytes.length + bytes.count lineFeed := by
  induction bytes with
  | nil => rfl
  | cons b bytes ih =>
      rw [List.flatMap_cons, List.length_append, ih, List.length_cons, List.count_cons]
      by_cases feed : b = lineFeed
      · simp only [textByte, feed, ↓reduceIte, List.length_cons, List.length_nil, beq_self_eq_true]
        omega
      · simp only [textByte, feed, ↓reduceIte, List.length_singleton, beq_iff_eq]
        omega

/-- It changes nothing exactly where there is no line feed. -/
theorem flatMap_textByte_eq_iff {bytes : List UInt8} :
    bytes.flatMap textByte = bytes ↔ lineFeed ∉ bytes := by
  rw [← List.count_eq_zero]
  constructor
  · intro same
    have longer := length_flatMap_textByte bytes
    rw [same] at longer
    omega
  · intro none
    rw [List.count_eq_zero] at none
    have plain : ∀ b ∈ bytes, textByte b = [b] := by
      intro b hb
      rw [textByte, if_neg]
      rintro rfl
      exact none hb
    rw [List.flatMap_congr plain, List.flatMap_singleton']

namespace CSaveData

variable {saved : CSaveData} {records : List ArchiveData}

theorem openSaveData_saveFile {opened : CSaveData} {stg : StdString} {dateDay : Nat}
    (h : saved.openSaveData stg dateDay = some opened) :
    ∃ path mode, mode.binary = false ∧ opened.saveFile = Fstream.openFile path mode := by
  simp only [openSaveData, Option.ite_none_right_eq_some, Option.some.injEq] at h
  obtain ⟨_, rfl⟩ := h
  exact ⟨_, _, rfl, rfl⟩

/-- What a run of writes appends to an open text stream. -/
theorem writeAll_appended (path : StdString) (mode : Openmode)
    (file : saved.saveFile.file = some (path, mode)) (text : mode.binary = false) :
    (saved.writeAll records).saveFile.appended =
      saved.saveFile.appended ++
        (records.flatMap ArchiveData.codec.encode).flatMap textByte := by
  induction records generalizing saved with
  | nil => simp [writeAll]
  | cons record records ih =>
      have step : (saved.writeSaveData record).saveFile =
          { saved.saveFile with
            appended := saved.saveFile.appended ++
              (ArchiveData.codec.encode record).flatMap textByte } := by
        simp only [writeSaveData, Fstream.write, file, text, Bool.false_eq_true, ↓reduceIte]
      have still : (saved.writeSaveData record).saveFile.file = some (path, mode) := by
        rw [step]
        exact file
      change ((saved.writeSaveData record).writeAll records).saveFile.appended = _
      rw [ih still, step, List.flatMap_cons, List.flatMap_append, List.append_assoc]

end CSaveData

/-- The appended part of the file is a sequence of fixed-size records exactly when
no record has a byte that is a line feed. -/
theorem archive_is_records_iff (saved opened : CSaveData) (stg : StdString) (dateDay : Nat)
    (hopen : saved.openSaveData stg dateDay = some opened) (records : List ArchiveData) :
    FixedSizeRecords records (opened.writeAll records).saveFile.appended ↔
      ∀ record ∈ records, lineFeed ∉ ArchiveData.codec.encode record := by
  obtain ⟨path, mode, text, file⟩ := CSaveData.openSaveData_saveFile hopen
  have appended : (opened.writeAll records).saveFile.appended =
      (records.flatMap ArchiveData.codec.encode).flatMap textByte := by
    rw [CSaveData.writeAll_appended path mode (by rw [file]; rfl) text, file]
    exact List.nil_append _
  have plain : (∀ record ∈ records, lineFeed ∉ ArchiveData.codec.encode record) ↔
      lineFeed ∉ records.flatMap ArchiveData.codec.encode := by
    simp [List.mem_flatMap]
  rw [appended, plain, ← flatMap_textByte_eq_iff]
  constructor
  · exact fun archive => archive.concatenation
  · intro same
    refine ⟨same, ?_⟩
    intro i record h
    rw [same]
    exact ArchiveData.codec.recordAt_flatMap h

/-- A five-minute bar without a name, with the given volume. -/
def sampleRecord (volume : UInt64) : ArchiveData :=
  { period := 2
    padding := .replicate 4 0
    data :=
      { barName := .replicate 31 0, barEcg := .replicate 9 0, tradeDay := 0, tradeTime := 0
        openPrice := 0, highPrice := 0, lowPrice := 0, closePrice := 0, changePoint := 0
        changePercent := 0, volumeSize := volume } }

/-- The archive of a strategy, just opened. -/
def sampleArchive : CSaveData :=
  { saveFile :=
      Fstream.openFile "\\MA_20161101".toList { input := true, output := true, app := true } }

theorem archive_is_records_iff_sample :
    FixedSizeRecords [sampleRecord 9, sampleRecord 11]
      (sampleArchive.writeAll [sampleRecord 9, sampleRecord 11]).saveFile.appended :=
  (archive_is_records_iff {} sampleArchive "MA".toList 20161101 rfl _).mpr (by decide)

/-- A bar with a volume of ten lots shifts every record behind it: the file is opened
for text, so a carriage return is written in front of the byte of the ten. -/
theorem archive_record_shifted :
    ¬ ∀ (saved opened : CSaveData) (stg : StdString) (dateDay : Nat),
      saved.openSaveData stg dateDay = some opened → ∀ records,
        FixedSizeRecords records (opened.writeAll records).saveFile.appended := by
  intro claim
  have archive := claim {} sampleArchive "MA".toList 20161101 rfl
    [sampleRecord 10, sampleRecord 11]
  have second := archive.readBack 1 (sampleRecord 11) rfl
  exact absurd second (by decide)

end CtpTrade
