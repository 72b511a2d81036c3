import ElmLint.Diagnostic.Settings
import ElmLint.Diagnostic.Wire
import Mathlib.Data.List.Basic

/-!
# What is sent is what is received

A message may give a structure in many ways: as an object, with its members in any order and others
among them, or as an array; with a field that has a default, or without it; an alternative as its
name or as an object. All ways that give the fields the same values are received as the same
structure, and the one that is sent is one of them.
-/

namespace ElmLint

-- ---------------------------------------------------------------------------
-- Messages that give the same
-- ---------------------------------------------------------------------------

namespace Json

/-- Both are the same, or one is the other with the name of an alternative written as an object. -/
inductive SameAlternative : Json → Json → Prop where
  | refl (json : Json) : SameAlternative json json
  | object (name : String) : SameAlternative (.string name) (.object [(name, .null)])
  | symm {json json' : Json} : SameAlternative json json' → SameAlternative json' json

/-- Both are the same, or arrays with the same items. -/
inductive SameItems (same : Json → Json → Prop) : Json → Json → Prop where
  | refl (json : Json) : SameItems same json json
  | array {items items' : List Json} :
    List.Forall₂ same items items' → SameItems same (.array items) (.array items')

/-- The value that an object gives a field: the member of that name, or else the default. -/
def given? (default? : String → Option Json) (members : List (String × Json)) (name : String) :
    Option Json :=
  (member? name members).or (default? name)

/-- Both give a structure's fields the same values. In an object only the members with the names of
fields count, and a field that is left out counts as its default. An array gives the first fields
in their order. -/
inductive SameFields (names : List String) (default? : String → Option Json)
    (same : String → Json → Json → Prop) : Json → Json → Prop where
  | refl (json : Json) : SameFields names default? same json json
  | object {members members' : List (String × Json)} :
    (∀ name ∈ names,
      Option.Rel (same name) (given? default? members name) (given? default? members' name)) →
    SameFields names default? same (.object members) (.object members')
  | array {items : List Json} : items.length ≤ names.length →
    SameFields names default? same (.array items) (.object (names.zip items))
  | symm {json json' : Json} :
    SameFields names default? same json json' → SameFields names default? same json' json
  | trans {json json' json'' : Json} :
    SameFields names default? same json json' → SameFields names default? same json' json'' →
    SameFields names default? same json json''

end Json

def Position.SameMessage : Json → Json → Prop :=
  Json.SameFields ["line", "column"] (fun _ => none) fun _ => Eq

def Span.SameMessage : Json → Json → Prop :=
  Json.SameFields ["start", "end"] (fun _ => none) fun _ => Position.SameMessage

namespace Diagnostic

def defaultField? (name : String) : Option Json := if name = "tags" then some (.array []) else none

def SameField (name : String) : Json → Json → Prop :=
  if name = "severity" then Json.SameAlternative
  else if name = "range" then Span.SameMessage
  else if name = "tags" then Json.SameItems Json.SameAlternative
  else Eq

def SameMessage : Json → Json → Prop := Json.SameFields fieldNames defaultField? SameField

end Diagnostic

namespace Settings

def defaultField? (name : String) : Option Json :=
  if name = "lintEnabled" then some (.bool true)
  else if name = "disabledLints" then some (.array [])
  else if name = "debounceMs" then some (.natural 200)
  else if name = "interFileDelayMs" then some (.natural 10)
  else none

def SameField (name : String) : Json → Json → Prop :=
  if name = "disabledLints" then Json.SameItems Json.SameAlternative else Eq

def SameMessage : Json → Json → Prop := Json.SameFields fieldNames defaultField? SameField

end Settings

-- ---------------------------------------------------------------------------
-- Fields
-- ---------------------------------------------------------------------------

namespace Json

variable {α : Type} {names : List String} {default? : String → Option Json}
  {same : String → Json → Json → Prop} {json json' : Json}

theorem SameAlternative.alternative? (h : SameAlternative json json') :
    json.alternative? = json'.alternative? := by
  induction h with
  | refl | object => rfl
  | symm _ ih => exact ih.symm

theorem SameItems.items? {same : Json → Json → Prop} {decode : Json → Option α}
    (hdecode : ∀ item item', same item item' → decode item = decode item')
    (h : SameItems same json json') : json.items? decode = json'.items? decode := by
  cases h with
  | refl => rfl
  | array h =>
    simp only [Json.items?, array?, Option.bind_some]
    induction h with
    | nil => rfl
    | cons hitem _ ih => rw [List.mapM_cons, List.mapM_cons, hdecode _ _ hitem, ih]

theorem member?_cons (name other : String) (value : Json) (members : List (String × Json)) :
    member? name ((other, value) :: members) =
      if other = name then some value else member? name members := by
  simp only [member?, List.find?_cons]
  split <;> simp_all

theorem member?_zip (hnames : names.Nodup) {items : List Json} (h : items.length ≤ names.length) :
    names.map (member? · (names.zip items)) =
      items.map some ++ List.replicate (names.length - items.length) none := by
  induction names generalizing items with
  | nil => rw [List.eq_nil_of_length_eq_zero (Nat.le_zero.mp h)]; rfl
  | cons name names ih =>
    obtain ⟨hname, hnames⟩ := List.nodup_cons.mp hnames
    cases items with
    | nil => exact List.map_const'
    | cons item items =>
      have hlater : names.map (member? · (names.zip items)) =
          names.map (member? · ((name, item) :: names.zip items)) := by
        refine List.map_congr_left fun other hother => ?_
        have hne : name ≠ other := fun heq => hname (heq ▸ hother)
        rw [member?_cons, if_neg hne]
      rw [List.zip_cons_cons, List.map_cons, member?_cons, if_pos rfl, ← hlater,
        ih hnames (Nat.le_of_succ_le_succ h)]
      simp

/-- An array gives the fields the values that they have in an object which names them in order. -/
theorem fields?_array (hnames : names.Nodup) {items : List Json}
    (h : items.length ≤ names.length) :
    fields? names (.array items) = fields? names (.object (names.zip items)) :=
  (if_pos h).trans (congrArg some (member?_zip hnames h).symm)

/-- A reader of structures gives the same on messages that give the fields the same values, if it
looks at the fields only and takes a field that is left out for its default. -/
theorem SameFields.decode {decode : Json → Option α} (hnames : names.Nodup)
    (hfields : ∀ json json' : Json, json.fields? names = json'.fields? names →
      decode json = decode json')
    (hobject : ∀ members members' : List (String × Json),
      (∀ name ∈ names,
        Option.Rel (same name) (given? default? members name) (given? default? members' name)) →
      decode (.object members) = decode (.object members'))
    (h : SameFields names default? same json json') : decode json = decode json' := by
  induction h with
  | refl => rfl
  | object h => exact hobject _ _ h
  | array h => exact hfields _ _ (fields?_array hnames h)
  | symm _ ih => exact ih.symm
  | trans _ _ ih ih' => exact ih.trans ih'

theorem bind_given?_congr {decode : Json → Option α} {members members' : List (String × Json)}
    (name : String) (h : ∀ name ∈ names,
      Option.Rel (same name) (given? default? members name) (given? default? members' name))
    (hname : name ∈ names) (hdecode : ∀ value value', same name value value' →
      decode value = decode value') :
    (given? default? members name).bind decode = (given? default? members' name).bind decode := by
  have hsame := h name hname
  generalize given? default? members name = value, given? default? members' name = value' at hsame ⊢
  cases hsame with
  | some h => exact hdecode _ _ h
  | none => rfl

theorem bind_given?_of_none {decode : Json → Option α} {name : String}
    (h : default? name = none) (members : List (String × Json)) :
    (given? default? members name).bind decode = (member? name members).bind decode := by
  rw [given?, h, Option.or_none]

theorem bind_given?_of_some (decode : Json → Option α) {name : String} {written : Json}
    {default : α} (h : default? name = some written) (hdefault : decode written = some default)
    (members : List (String × Json)) :
    (given? default? members name).bind decode =
      optional? default decode (member? name members) := by
  rw [given?, h]
  cases member? name members with
  | none => exact hdefault
  | some => rfl

theorem items?_map {decode : Json → Option α} {encode : α → Json}
    (h : ∀ x, decode (encode x) = some x) (xs : List α) :
    (Json.array (xs.map encode)).items? decode = some xs := by
  rw [items?, array?, Option.bind_some]
  induction xs with
  | nil => rfl
  | cons x xs ih => rw [List.map_cons, List.mapM_cons, h, ih]; rfl

theorem word?_natural {n : Nat} (h : n < UInt64.size) : (natural n).word? = some n := by
  simp [word?, natural?, h]

theorem lt_of_word? {n : Nat} (h : json.word? = some n) : n < UInt64.size := by
  simpa using (Option.filter_eq_some_iff.mp h).2

end Json

-- ---------------------------------------------------------------------------
-- Structures
-- ---------------------------------------------------------------------------

open Json (member? given?)

variable {json json' : Json} {members : List (String × Json)}

theorem Position.ofJson?_object :
    ofJson? (.object members) = do
      let line ← (given? (fun _ => none) members "line").bind Json.word?
      let column ← (given? (fun _ => none) members "column").bind Json.word?
      return ⟨line, column⟩ := by
  simp only [Json.bind_given?_of_none, ofJson?, Json.fields?, List.map_cons, List.map_nil]
  cases member? "line" members <;> cases member? "column" members <;> simp

theorem Span.ofJson?_object :
    ofJson? (.object members) = do
      let start ← (given? (fun _ => none) members "start").bind Position.ofJson?
      let stop ← (given? (fun _ => none) members "end").bind Position.ofJson?
      return ⟨start, stop⟩ := by
  simp only [Json.bind_given?_of_none, ofJson?, Json.fields?, List.map_cons, List.map_nil]
  cases member? "start" members <;> cases member? "end" members <;> simp

theorem Diagnostic.ofJson?_object :
    ofJson? (.object members) = do
      let code ← (given? defaultField? members "code").bind Json.string?
      let message ← (given? defaultField? members "message").bind Json.string?
      let severity ← (given? defaultField? members "severity").bind Severity.ofJson?
      let source ← (given? defaultField? members "source").bind Json.string?
      let span ← (given? defaultField? members "range").bind Span.ofJson?
      let tags ← (given? defaultField? members "tags").bind (Json.items? DiagnosticTag.ofJson?)
      return ⟨code, message, severity, source, span, tags, .lint⟩ := by
  rw [Json.bind_given?_of_none rfl, Json.bind_given?_of_none rfl, Json.bind_given?_of_none rfl,
    Json.bind_given?_of_none rfl, Json.bind_given?_of_none rfl,
    Json.bind_given?_of_some (Json.items? DiagnosticTag.ofJson?) rfl rfl]
  simp only [ofJson?, fieldNames, Json.fields?, List.map_cons, List.map_nil]
  cases member? "code" members with
  | none => rfl
  | some code =>
  cases member? "message" members with
  | none => simp
  | some message =>
  cases member? "severity" members with
  | none => simp
  | some severity =>
  cases member? "source" members with
  | none => simp
  | some source =>
  cases member? "range" members with
  | none => simp
  | some span => rfl

theorem Settings.ofJson?_object :
    ofJson? (.object members) = do
      let enabled ← (given? defaultField? members "lintEnabled").bind Json.bool?
      let disabled ← (given? defaultField? members "disabledLints").bind (Json.items? code?)
      let debounce ← (given? defaultField? members "debounceMs").bind Json.word?
      let delay ← (given? defaultField? members "interFileDelayMs").bind Json.word?
      return ⟨enabled, disabled, debounce, delay⟩ := by
  rw [Json.bind_given?_of_some Json.bool? rfl rfl,
    Json.bind_given?_of_some (Json.items? code?) rfl rfl,
    Json.bind_given?_of_some Json.word? rfl rfl, Json.bind_given?_of_some Json.word? rfl rfl]
  rfl

-- ---------------------------------------------------------------------------
-- Received from messages that give the same
-- ---------------------------------------------------------------------------

theorem Position.SameMessage.ofJson? (h : SameMessage json json') :
    Position.ofJson? json = Position.ofJson? json' := by
  refine Json.SameFields.decode (by decide) (fun _ _ heq => ?_) (fun _ _ h => ?_) h
  · rw [Position.ofJson?, Position.ofJson?, heq]
  · have hword (x y : Json) (h : x = y) : x.word? = y.word? := congrArg _ h
    rw [ofJson?_object, ofJson?_object, Json.bind_given?_congr "line" h (by simp) hword,
      Json.bind_given?_congr "column" h (by simp) hword]

theorem Span.SameMessage.ofJson? (h : SameMessage json json') :
    Span.ofJson? json = Span.ofJson? json' := by
  refine Json.SameFields.decode (by decide) (fun _ _ heq => ?_) (fun _ _ h => ?_) h
  · rw [Span.ofJson?, Span.ofJson?, heq]
  · have hposition (x y : Json) (h : Position.SameMessage x y) :
      Position.ofJson? x = Position.ofJson? y := h.ofJson?
    rw [ofJson?_object, ofJson?_object, Json.bind_given?_congr "start" h (by simp) hposition,
      Json.bind_given?_congr "end" h (by simp) hposition]

theorem Diagnostic.SameMessage.ofJson? (h : SameMessage json json') :
    Diagnostic.ofJson? json = Diagnostic.ofJson? json' := by
  refine Json.SameFields.decode (by decide) (fun _ _ heq => ?_) (fun _ _ h => ?_) h
  · rw [Diagnostic.ofJson?, Diagnostic.ofJson?, heq]
  · have hstring (x y : Json) (h : x = y) : x.string? = y.string? := congrArg _ h
    have hseverity (x y : Json) (h : Json.SameAlternative x y) :
        Severity.ofJson? x = Severity.ofJson? y := by
      rw [Severity.ofJson?, Severity.ofJson?, h.alternative?]
    have hspan (x y : Json) (h : Span.SameMessage x y) : Span.ofJson? x = Span.ofJson? y :=
      h.ofJson?
    have htag (x y : Json) (h : Json.SameAlternative x y) :
        DiagnosticTag.ofJson? x = DiagnosticTag.ofJson? y := by
      rw [DiagnosticTag.ofJson?, DiagnosticTag.ofJson?, h.alternative?]
    have htags (x y : Json) (h : Json.SameItems Json.SameAlternative x y) :
        x.items? DiagnosticTag.ofJson? = y.items? DiagnosticTag.ofJson? := h.items? htag
    rw [ofJson?_object, ofJson?_object,
      Json.bind_given?_congr "code" h (by simp [fieldNames]) hstring,
      Json.bind_given?_congr "message" h (by simp [fieldNames]) hstring,
      Json.bind_given?_congr "severity" h (by simp [fieldNames]) hseverity,
      Json.bind_given?_congr "source" h (by simp [fieldNames]) hstring,
      Json.bind_given?_congr "range" h (by simp [fieldNames]) hspan,
      Json.bind_given?_congr "tags" h (by simp [fieldNames]) htags]

theorem Settings.SameMessage.ofJson? (h : SameMessage json json') :
    Settings.ofJson? json = Settings.ofJson? json' := by
  refine Json.SameFields.decode (by decide) (fun _ _ heq => ?_) (fun _ _ h => ?_) h
  · rw [Settings.ofJson?, Settings.ofJson?, heq]
  · have hbool (x y : Json) (h : x = y) : x.bool? = y.bool? := congrArg _ h
    have hword (x y : Json) (h : x = y) : x.word? = y.word? := congrArg _ h
    have hcode (x y : Json) (h : Json.SameAlternative x y) : code? x = code? y := by
      rw [code?, code?, h.alternative?]
    have hcodes (x y : Json) (h : Json.SameItems Json.SameAlternative x y) :
        x.items? code? = y.items? code? := h.items? hcode
    rw [ofJson?_object, ofJson?_object,
      Json.bind_given?_congr "lintEnabled" h (by simp [fieldNames]) hbool,
      Json.bind_given?_congr "disabledLints" h (by simp [fieldNames]) hcodes,
      Json.bind_given?_congr "debounceMs" h (by simp [fieldNames]) hword,
      Json.bind_given?_congr "interFileDelayMs" h (by simp [fieldNames]) hword]

-- ---------------------------------------------------------------------------
-- Received from what was sent
-- ---------------------------------------------------------------------------

/-- Line and column fit into 64 bits. -/
def Position.Fits (p : Position) : Prop := p.line < UInt64.size ∧ p.column < UInt64.size

def Span.Fits (s : Span) : Prop := s.start.Fits ∧ s.stop.Fits

def Settings.Fits (s : Settings) : Prop := s.debounce < UInt64.size ∧ s.interFileDelay < UInt64.size

def Position.toArray (p : Position) : Json := .array [.natural p.line, .natural p.column]

def Span.toArray (s : Span) : Json := .array [s.start.toArray, s.stop.toArray]

/-- The diagnostic as a message without the names of its fields. -/
def Diagnostic.toArray (d : Diagnostic) : Json :=
  .array [.string d.code, .string d.message, .string d.severity.name, .string d.source,
    d.span.toArray, .array (d.tags.map (.string ·.name))]

theorem Position.ofJson?_toJson {p : Position} (h : p.Fits) : ofJson? p.toJson = some p := by
  rw [toJson, ofJson?_object]
  simp [given?, member?, Json.word?_natural h.1, Json.word?_natural h.2]

theorem Position.ofJson?_toArray {p : Position} (h : p.Fits) : ofJson? p.toArray = some p := by
  simp [toArray, ofJson?, Json.fields?, Json.word?_natural h.1, Json.word?_natural h.2]

theorem Span.ofJson?_toJson {s : Span} (h : s.Fits) : ofJson? s.toJson = some s := by
  rw [toJson, ofJson?_object]
  simp [given?, member?, Position.ofJson?_toJson h.1, Position.ofJson?_toJson h.2]

theorem Span.ofJson?_toArray {s : Span} (h : s.Fits) : ofJson? s.toArray = some s := by
  simp [toArray, ofJson?, Json.fields?, Position.ofJson?_toArray h.1, Position.ofJson?_toArray h.2]

theorem Severity.ofJson?_name (severity : Severity) :
    ofJson? (.string severity.name) = some severity :=
  ofName?_name severity

theorem DiagnosticTag.items?_names (tags : List DiagnosticTag) :
    (Json.array (tags.map (.string ·.name))).items? DiagnosticTag.ofJson? = some tags :=
  Json.items?_map DiagnosticTag.ofName?_name tags

theorem Settings.items?_names (codes : List LintCode) :
    (Json.array (codes.map (.string ·.name))).items? Settings.code? = some codes :=
  Json.items?_map LintCode.ofName?_name codes

theorem Diagnostic.ofJson?_toJson {d : Diagnostic} (h : d.span.Fits) :
    ofJson? d.toJson = some { d with kind := .lint } := by
  rw [toJson, ofJson?_object]
  by_cases htags : d.tags = []
  · simp [given?, member?, Severity.ofJson?_name, Span.ofJson?_toJson h, Json.string?,
      htags, defaultField?, Json.items?, Json.array?]
  · simp [given?, member?, Severity.ofJson?_name, Span.ofJson?_toJson h, Json.string?,
      htags, DiagnosticTag.items?_names]

theorem Diagnostic.ofJson?_toArray {d : Diagnostic} (h : d.span.Fits) :
    ofJson? d.toArray = some { d with kind := .lint } := by
  simp [toArray, ofJson?, Json.fields?, fieldNames, Severity.ofJson?_name, Span.ofJson?_toArray h,
    Json.string?, Json.optional?, DiagnosticTag.items?_names]

theorem Settings.ofJson?_toJson {s : Settings} (h : s.Fits) : ofJson? s.toJson = some s := by
  rw [toJson, ofJson?_object]
  obtain ⟨enabled, lints, debounce, delay⟩ := s
  by_cases hlints : lints = []
  · simp [given?, member?, Json.bool?, hlints, defaultField?, Json.items?, Json.array?,
      Json.word?_natural h.1, Json.word?_natural h.2]
  · simp [given?, member?, Json.bool?, hlints, Settings.items?_names,
      Json.word?_natural h.1, Json.word?_natural h.2]

-- ---------------------------------------------------------------------------
-- Sent again
-- ---------------------------------------------------------------------------

theorem Position.fits_of_ofJson? {p : Position} (h : ofJson? json = some p) : p.Fits := by
  unfold ofJson? at h
  split at h
  · obtain ⟨line, hline, h⟩ := Option.bind_eq_some_iff.mp h
    obtain ⟨column, hcolumn, h⟩ := Option.bind_eq_some_iff.mp h
    cases h
    exact ⟨Json.lt_of_word? hline, Json.lt_of_word? hcolumn⟩
  · cases h

theorem Span.fits_of_ofJson? {s : Span} (h : ofJson? json = some s) : s.Fits := by
  unfold ofJson? at h
  split at h
  · obtain ⟨start, hstart, h⟩ := Option.bind_eq_some_iff.mp h
    obtain ⟨stop, hstop, h⟩ := Option.bind_eq_some_iff.mp h
    cases h
    exact ⟨Position.fits_of_ofJson? hstart, Position.fits_of_ofJson? hstop⟩
  · cases h

theorem Diagnostic.fits_of_ofJson? {d : Diagnostic} (h : ofJson? json = some d) :
    d.span.Fits ∧ d.kind = .lint := by
  unfold ofJson? at h
  split at h
  · obtain ⟨code, -, h⟩ := Option.bind_eq_some_iff.mp h
    obtain ⟨message, -, h⟩ := Option.bind_eq_some_iff.mp h
    obtain ⟨severity, -, h⟩ := Option.bind_eq_some_iff.mp h
    obtain ⟨source, -, h⟩ := Option.bind_eq_some_iff.mp h
    obtain ⟨span, hspan, h⟩ := Option.bind_eq_some_iff.mp h
    obtain ⟨tags, -, h⟩ := Option.bind_eq_some_iff.mp h
    cases h
    exact ⟨Span.fits_of_ofJson? hspan, rfl⟩
  · cases h

theorem Settings.fits_of_ofJson? {s : Settings} (h : ofJson? json = some s) : s.Fits := by
  have hword {field : Option Json} {default n : Nat} (hdefault : default < UInt64.size)
      (h : Json.optional? default Json.word? field = some n) : n < UInt64.size := by
    cases field with
    | none => exact Option.some.inj h ▸ hdefault
    | some => exact Json.lt_of_word? h
  unfold ofJson? at h
  split at h
  · obtain ⟨enabled, -, h⟩ := Option.bind_eq_some_iff.mp h
    obtain ⟨disabled, -, h⟩ := Option.bind_eq_some_iff.mp h
    obtain ⟨debounce, hdebounce, h⟩ := Option.bind_eq_some_iff.mp h
    obtain ⟨delay, hdelay, h⟩ := Option.bind_eq_some_iff.mp h
    cases h
    exact ⟨hword (by decide) hdebounce, hword (by decide) hdelay⟩
  · cases h

theorem Diagnostic.ofJson?_toJson_of_ofJson? {d : Diagnostic} (h : ofJson? json = some d) :
    ofJson? d.toJson = some d := by
  obtain ⟨hfits, hkind⟩ := fits_of_ofJson? h
  rw [ofJson?_toJson hfits, ← hkind]

/-- Diagnostics and settings come back from the messages that they are sent as, up to the kind of a
diagnostic. What was received and is sent is received as the same again, and which of the messages
that give the same was received makes no difference. -/
theorem messages_round_trip :
    (∀ d : Diagnostic, d.span.Fits →
      Diagnostic.ofJson? d.toJson = some { d with kind := .lint } ∧
      Diagnostic.ofJson? d.toArray = some { d with kind := .lint }) ∧
    (∀ s : Settings, s.Fits → Settings.ofJson? s.toJson = some s) ∧
    (∀ json d, Diagnostic.ofJson? json = some d → Diagnostic.ofJson? d.toJson = some d) ∧
    (∀ json s, Settings.ofJson? json = some s → Settings.ofJson? s.toJson = some s) ∧
    (∀ json json', Diagnostic.SameMessage json json' →
      Diagnostic.ofJson? json = Diagnostic.ofJson? json') ∧
    (∀ json json', Settings.SameMessage json json' →
      Settings.ofJson? json = Settings.ofJson? json') :=
  ⟨fun _ h => ⟨Diagnostic.ofJson?_toJson h, Diagnostic.ofJson?_toArray h⟩,
    fun _ h => Settings.ofJson?_toJson h,
    fun _ _ h => Diagnostic.ofJson?_toJson_of_ofJson? h,
    fun _ _ h => Settings.ofJson?_toJson (Settings.fits_of_ofJson? h),
    fun _ _ h => h.ofJson?, fun _ _ h => h.ofJson?⟩

end ElmLint
