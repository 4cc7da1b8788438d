import Raz.Http.Lines

/-!
# Requests that are written and parsed again

A request that `append_request_line` and `append_header` have built is a text of lines, and the
parser finds these lines and the fields in them. Only the target is not looked at by the writers,
so that a target with spaces or line ends is the one thing that can split a line.

Results:
1. `write_parse`: what is parsed is what was written if and only if the bytes of the target are
   bytes of a target.
2. `write_parse_split`: a target that brings its own headers.
-/

namespace Raz.Http

open List

/-! ## What is written -/

/-- A header as `append_header` writes it, with a space in front of the value. -/
def written (field : List UInt8 × List UInt8) : List UInt8 × List UInt8 :=
  (field.1, 32 :: field.2)

theorem readField_written (field : List UInt8 × List UInt8) :
    readField (written field) = readField field := by
  unfold readField written
  rw [trimOws_space]

theorem isField_written {field : List UInt8 × List UInt8} (h : IsField field) :
    IsField (written field) :=
  ⟨h.name_ne, h.name_token, by simp [written, h.value_cr]⟩

/-- The head of a request that was written. -/
def writtenHead (method target : List UInt8) (fields : List (List UInt8 × List UInt8)) :
    RequestHead :=
  ⟨method, target, versionPrefix ++ [49], fields.map written⟩

theorem foldlM_appendHeader (fields : List (List UInt8 × List UInt8)) :
    ∀ {output text : List UInt8},
      fields.foldlM (fun output field => appendHeader output field.1 field.2) output = some text →
      text = output ++ fieldsBlock (fields.map written) ∧ ∀ field ∈ fields, IsField field := by
  induction fields with
  | nil =>
    intro output text h
    cases h
    exact ⟨(append_nil _).symm, fun _ hmem => absurd hmem not_mem_nil⟩
  | cons field fields ih =>
    intro output text h
    rw [foldlM_cons] at h
    obtain ⟨next, happend, hrest⟩ := Option.bind_eq_some_iff.mp h
    obtain ⟨htext, hfields⟩ := ih hrest
    unfold appendHeader at happend
    split at happend
    · cases happend
    rename_i hvalid
    obtain ⟨hname, hval⟩ := not_or.mp hvalid
    cases happend
    refine ⟨?_, fun other hmem => ?_⟩
    · rw [htext, map_cons, fieldsBlock_cons]
      simp [fieldLine, written]
    rcases mem_cons.mp hmem with rfl | hmem
    · simp only [validHeaderComponent, if_true, Bool.and_eq_true, Decidable.not_not,
        decide_eq_true_eq] at hname hval
      refine ⟨hname.1, hname.2, ?_⟩
      exact not_mem_of_all hval.2 (by decide)
    · exact hfields other hmem

theorem target_of_parseRequest {source : List UInt8} {maxHeaderBytes : Int} {error : HttpError}
    {view : HttpRequestView} (h : parseRequest source maxHeaderBytes = (error, some view)) :
    view.target.all isTargetByte = true := by
  unfold parseRequest at h
  split at h
  · cases h
  split at h
  · cases h
  split at h
  · cases h
  split at h
  · cases h
  split at h
  · cases h
  split at h
  · cases h
  rename_i htarget
  split at h
  · split at h <;> cases h
  simp only at h
  split at h
  · cases h
  cases h
  exact Bool.of_not_eq_false htarget

theorem writeRequest_text {method target text : List UInt8}
    {fields : List (List UInt8 × List UInt8)} (h : writeRequest method target fields = some text) :
    method ≠ [] ∧ method.all isTokenByte = true ∧ target ≠ [] ∧
      (∀ field ∈ fields, IsField field) ∧ text = (writtenHead method target fields).text := by
  obtain ⟨line, hline, h⟩ := Option.bind_eq_some_iff.mp h
  obtain ⟨output, hfields, h⟩ := Option.bind_eq_some_iff.mp h
  obtain ⟨rfl, hvalid⟩ := foldlM_appendHeader fields hfields
  unfold appendRequestLine at hline
  split at hline
  · cases hline
  rename_i haccepted
  obtain ⟨hmethod, htarget⟩ := not_or.mp haccepted
  simp only [validHeaderComponent, if_true, Bool.and_eq_true, Decidable.not_not,
    decide_eq_true_eq] at hmethod
  cases hline
  cases h
  refine ⟨hmethod.1, hmethod.2, htarget, hvalid, ?_⟩
  rw [← append_nil (writtenHead method target fields).text, RequestHead.text_cut]
  simp [writtenHead, RequestHead.line, endHeaders]

/-! ## What is parsed -/

/-- A name that says nothing about the framing. -/
def IsPlainName (name : List UInt8) : Prop :=
  isIgnoringCase name contentLengthName = false ∧
    isIgnoringCase name transferEncodingName = false ∧
    isIgnoringCase name connectionName = false

theorem analyzeHeader_plain {field : List UInt8 × List UInt8} (h : IsField field)
    (hplain : IsPlainName field.1) (framing : Framing) :
    analyzeHeader framing (readField field) = .ok framing := by
  obtain ⟨hlen, htransfer, hconnection⟩ := hplain
  unfold analyzeHeader readField
  simp [h.name_token, hlen, htransfer, hconnection]

theorem analyzeHeaders_plain {fields : List (List UInt8 × List UInt8)}
    (hfields : ∀ field ∈ fields, IsField field ∧ IsPlainName field.1) :
    analyzeHeaders (fieldsBlock fields) = .ok ⟨-1, false, false⟩ := by
  refine analyzeHeaders_fields (fun field hmem => (hfields field hmem).1) ?_ (by decide)
  induction fields with
  | nil => rfl
  | cons field fields ih =>
    obtain ⟨⟨hfield, hplain⟩, hrest⟩ := forall_mem_cons.mp hfields
    rw [map_cons, foldlM_cons, analyzeHeader_plain hfield hplain]
    exact ih hrest

/-- The text is parsed into the method, the target and the fields. -/
def ParsedAs (text : List UInt8) (maxHeaderBytes : Int) (method target : List UInt8)
    (fields : List (List UInt8 × List UInt8)) : Prop :=
  ∃ view : HttpRequestView, parseRequest text maxHeaderBytes = (.none, some view) ∧
    view.method = method ∧ view.target = target ∧
    ∀ rounds : Nat, view.headerBlock.length < rounds →
      (readHeaders rounds (headers view.headerBlock)).1 = fields.map readField ∧
        (readHeaders rounds (headers view.headerBlock)).2.invalid = false

/-- **A request that the writers accept is parsed back field by field, if and only if its target
has no space, no control byte and no DEL.** -/
theorem write_parse {method target text : List UInt8} {fields : List (List UInt8 × List UInt8)}
    {maxHeaderBytes : Int} (h : writeRequest method target fields = some text)
    (hplain : ∀ field ∈ fields, IsPlainName field.1)
    (hmax : maxHeaderBytes ≤ 0 ∨ (text.length : Int) ≤ maxHeaderBytes) :
    ParsedAs text maxHeaderBytes method target fields ↔ ∀ b ∈ target, 32 < b ∧ b ≠ 127 := by
  obtain ⟨hmethod, htoken, htarget, hfields, rfl⟩ := writeRequest_text h
  have hbytes : target.all isTargetByte = true ↔ ∀ b ∈ target, 32 < b ∧ b ≠ 127 := by
    simp [isTargetByte, UInt8.not_le]
  rw [← hbytes]
  refine ⟨fun ⟨view, hparse, _, hview, _⟩ => hview ▸ target_of_parseRequest hparse, fun hall => ?_⟩
  have hwrote : ∀ field ∈ fields.map written, IsField field ∧ IsPlainName field.1 := by
    intro field hmem
    obtain ⟨field, hfield, rfl⟩ := mem_map.mp hmem
    exact ⟨isField_written (hfields field hfield), hplain field hfield⟩
  have hhead : (writtenHead method target fields).WellFormed :=
    ⟨hmethod, htoken, htarget, hall, rfl, fun field hmem => (hwrote field hmem).1⟩
  have hparse := parseRequest_head hhead (analyzeHeaders_plain hwrote) hmax []
  rw [append_nil] at hparse
  refine ⟨_, hparse, rfl, rfl, fun rounds hrounds => ?_⟩
  show (readHeaders rounds (headers (fieldsBlock (fields.map written)))).1 = _ ∧
    (readHeaders rounds (headers (fieldsBlock (fields.map written)))).2.invalid = false
  rw [readHeaders_block (fun field hmem => (hwrote field hmem).1) hrounds, map_map]
  exact ⟨map_congr_left fun field _ => readField_written field, rfl⟩

/-- `GET /a` with the header `X: 1`. -/
theorem write_parse_plain :
    ParsedAs [71, 69, 84, 32, 47, 97, 32, 72, 84, 84, 80, 47, 49, 46, 49, 13, 10, 88, 58, 32, 49,
      13, 10, 13, 10] 4096 [71, 69, 84] [47, 97] [([88], [49])] ↔
      ∀ b ∈ ([47, 97] : List UInt8), 32 < b ∧ b ≠ 127 :=
  write_parse (by decide) (by unfold IsPlainName; decide) (by decide)

/-- `/ HTTP/1.1`, a line `E: 1` and the name `A:`. -/
def splittingTarget : List UInt8 :=
  [47, 32, 72, 84, 84, 80, 47, 49, 46, 49, 13, 10, 69, 58, 32, 49, 13, 10, 65, 58]

/-- The request is accepted, and its headers are the target's. -/
theorem write_parse_split :
    ¬ ∀ (method target text : List UInt8) (fields : List (List UInt8 × List UInt8)),
      writeRequest method target fields = some text → text.length ≤ 4096 →
      (∀ field ∈ fields, IsPlainName field.1) → ParsedAs text 4096 method target fields := by
  intro hall
  have hwrite : writeRequest [71, 69, 84] splittingTarget [] =
      some (writtenHead [71, 69, 84] splittingTarget []).text := by decide
  obtain ⟨view, hparse, _, htarget, _⟩ :=
    hall _ _ _ _ hwrite (by decide) (fun _ hmem => nomatch hmem)
  have hview : (parseRequest (writtenHead [71, 69, 84] splittingTarget []).text 4096).2.map
      (fun view => view.target) = some [47] := by decide
  rw [hparse, Option.map_some, htarget] at hview
  cases hview

end Raz.Http
