/-
Reading a file at a cursor.

A unit can be read in one pass over the tokens of its file.  A cursor stands among them, each
form of statement takes the tokens it needs one by one, and what the statement declares is
added to the unit at once.  A token that is not there is a failure, which cites the token in
front of the cursor; in front of the first token there is none to cite.

`parse_eq_ofTokens` says that this gives the units that cutting the tokens into statements
first and putting these together afterwards does, and fails as that does.  The invariant is
that the tokens in front of the cursor are those of the statements read so far: a cursor with
`front` before it and `rest` behind it is `behind front rest`, and where a statement lacks a
token nothing is behind the cursor, but the statement's keyword is before it.
-/
import ShaderLink.Proofs.Unit.Exhaustion

namespace ShaderLink

open Statement (exhausted)

/-! ### Cursors -/

/-- A position among the tokens of a file. -/
structure Cursor where
  file : String
  tokens : List Token
  pos : Nat

namespace Cursor

/-- The token at the cursor. -/
def peek (c : Cursor) : Option Token := c.tokens[c.pos]?

def forward (c : Cursor) : Cursor := { c with pos := c.pos + 1 }

/-- The token in front of the cursor. -/
def taken? (c : Cursor) : Option Token := if c.pos = 0 then none else c.tokens[c.pos - 1]?

/-- The token at the cursor and the cursor behind it. -/
def next (c : Cursor) : Except BuildError (Token × Cursor) :=
  match c.peek with
  | some token => .ok (token, c.forward)
  | none =>
    match c.taken? with
    | some last => .error (.exhausted c.file last.line last.text)
    | none => .error (.exhausted c.file 0 "")

/-- The number of tokens from the cursor on. -/
def room (c : Cursor) : Nat := c.tokens.length - c.pos

private theorem room_forward {c : Cursor} {token : Token} (h : c.peek = some token) :
    c.forward.room < c.room := by
  obtain ⟨hlt, -⟩ := List.getElem?_eq_some_iff.mp h
  show c.tokens.length - (c.pos + 1) < c.tokens.length - c.pos
  omega

private theorem room_next {c c' : Cursor} {token : Token} (h : c.next = .ok (token, c')) :
    c'.room < c.room := by
  unfold next at h
  split at h
  · rename_i hpeek
    cases h
    exact room_forward hpeek
  · split at h
    · cases h
    · cases h

/-! ### Statements at a cursor -/

/-- A literal with the texts of the tokens up to a semicolon added, and the cursor behind that. -/
def restOfLiteral (literal : String) (c : Cursor) : Except BuildError (String × Cursor) :=
  match _h : c.next with
  | .ok (token, c) =>
    if token.text = ";" then .ok (literal, c) else restOfLiteral (literal ++ token.text) c
  | .error error => .error error
termination_by c.room
decreasing_by exact room_next _h

def constant (settings : Settings) (kind : ConstKind) (unit : ShaderUnit) (c : Cursor) :
    Except BuildError (ShaderUnit × Cursor) := do
  let (keyword, c) ← c.next
  let (name, c) ← c.next
  let (_, c) ← c.next
  let (first, c) ← c.next
  let (literal, c) ← c.restOfLiteral first.text
  let found ← Statement.declaredConstant settings c.file kind keyword name literal
  return ({ unit with constants := unit.constants.insert found }, c)

def precision (unit : ShaderUnit) (c : Cursor) : Except BuildError (ShaderUnit × Cursor) := do
  let (keyword, c) ← c.next
  let (qualifier, c) ← c.next
  let (type, c) ← c.next
  let (stop, c) ← c.next
  if type.text = "float" then
    return ({ unit with precision := some ⟨qualifier.text, keyword.line⟩ }, c)
  else
    return ({ unit with body := unit.body ++ [keyword, qualifier, type, stop] }, c)

def inclusion (unit : ShaderUnit) (c : Cursor) : Except BuildError (ShaderUnit × Cursor) := do
  let (_, c) ← c.next
  let (path, c) ← c.next
  let included := String.ofList (Text.stripEnds (· == '"') path.text.toList)
  return ({ unit with includes := unit.includes ++ [included] }, c)

def version (unit : ShaderUnit) (c : Cursor) : Except BuildError (ShaderUnit × Cursor) := do
  let (keyword, c) ← c.next
  let (number, c) ← c.next
  if (Text.count32? number.text).isNone then
    .error (.malformedVersion c.file number.line number.text)
  else
    match c.peek.filter (·.line = number.line) with
    | some profile => do
      let (_, c) ← c.next
      return ({ unit with version := some ⟨number.text ++ " " ++ profile.text, keyword.line⟩ }, c)
    | none => return ({ unit with version := some ⟨number.text, keyword.line⟩ }, c)

def stage (unit : ShaderUnit) (c : Cursor) : Except BuildError (ShaderUnit × Cursor) := do
  let (keyword, c) ← c.next
  let (label, c) ← c.next
  match Stage.ofName? label.text with
  | some found => return ({ unit with stage := some ⟨found, keyword.line⟩ }, c)
  | none => .error (.illegalStage c.file label.line label.text)

/-- A body with the tokens of code added, and the cursor behind them. -/
def code (body : List Token) (c : Cursor) : List Token × Cursor :=
  match _h : c.peek with
  | some token =>
    if token.text = ";" then (body ++ [token], c.forward)
    else
      match c.forward.peek with
      | some next =>
        if Statement.keywords.contains next.text then (body ++ [token], c.forward)
        else code (body ++ [token]) c.forward
      | none => code (body ++ [token]) c.forward
  | none => (body, c)
termination_by c.room
decreasing_by
  · exact room_forward _h
  · exact room_forward _h

/-- The unit with the statement added that a token opens, and the cursor behind the statement. -/
def step (settings : Settings) (opening : Token) (unit : ShaderUnit) (c : Cursor) :
    Except BuildError (ShaderUnit × Cursor) :=
  match opening.text with
  | "const_int" => constant settings .int unit c
  | "const_float" => constant settings .float unit c
  | "precision" => precision unit c
  | "#include" => inclusion unit c
  | "#version" => version unit c
  | "#type" => stage unit c
  | _ =>
    let (body, c) := code unit.body c
    .ok ({ unit with body }, c)

/-! ### Where a cursor stands -/

/-- The cursor behind some tokens of a file and in front of the others. -/
def behind (file : String) (front rest : List Token) : Cursor := ⟨file, front ++ rest, front.length⟩

variable {settings : Settings} {file literal : String} {front rest body : List Token}
  {token keyword first : Token} {unit : ShaderUnit} {kind : ConstKind}

private theorem peek_behind (file : String) (front rest : List Token) :
    (behind file front rest).peek = rest.head? := by
  show (front ++ rest)[front.length]? = rest.head?
  rw [List.getElem?_append_right (Nat.le_refl _), Nat.sub_self, List.head?_eq_getElem?]

private theorem forward_behind (file : String) (front rest : List Token) (token : Token) :
    (behind file front (token :: rest)).forward = behind file (front ++ [token]) rest := by
  simp [behind, forward]

private theorem next_behind_cons (file : String) (front rest : List Token) (token : Token) :
    (behind file front (token :: rest)).next =
      .ok (token, behind file (front ++ [token]) rest) := by
  rw [next, peek_behind, List.head?_cons, forward_behind]

/-- **Behind the last token the cursor cites it.** -/
theorem next_behind_nil (nonempty : front ≠ []) :
    (behind file front []).next = .error (exhausted file front) := by
  have hpos : (behind file front []).pos ≠ 0 := mt List.length_eq_zero_iff.mp nonempty
  have htaken : (behind file front []).taken? = front.getLast? := by
    rw [taken?, if_neg hpos, List.getLast?_eq_getElem?]
    simp [behind]
  rw [next, peek_behind, htaken, exhausted]
  cases front.getLast? with
  | none => rfl
  | some last => rfl

/-- Where a token is needed and there, the statement goes on behind it. -/
private theorem next_bind_cons {α : Type} (f : Token × Cursor → Except BuildError α) :
    ((behind file front (token :: rest)).next >>= f) =
      f (token, behind file (front ++ [token]) rest) := by
  rw [next_behind_cons]
  rfl

/-- Where it is needed and not there, the statement fails. -/
private theorem next_bind_nil {α : Type} (nonempty : front ≠ [])
    (f : Token × Cursor → Except BuildError α) :
    ((behind file front []).next >>= f) = .error (exhausted file front) := by
  rw [next_behind_nil nonempty]
  rfl

private theorem exists_behind {c : Cursor} (h : c.peek = some token) :
    ∃ front rest, c = behind c.file front (token :: rest) := by
  obtain ⟨hlt, htoken⟩ := List.getElem?_eq_some_iff.mp h
  refine ⟨c.tokens.take c.pos, c.tokens.drop (c.pos + 1), ?_⟩
  have htokens : c.tokens.take c.pos ++ token :: c.tokens.drop (c.pos + 1) = c.tokens := by
    rw [← htoken, ← List.drop_eq_getElem_cons hlt, List.take_append_drop]
  rw [behind, htokens, List.length_take_of_le (Nat.le_of_lt hlt)]

/-! ### A step takes the statement that is read -/

private theorem restOfLiteral_of_stop {stop : Token} {more after : List Token}
    (ends : stop.text = ";") (inner : ∀ token ∈ more, token.text ≠ ";") :
    restOfLiteral literal (behind file front (more ++ stop :: after)) =
      .ok (literal ++ String.join (more.map (·.text)),
        behind file (front ++ (more ++ [stop])) after) := by
  induction more generalizing literal front with
  | nil =>
      rw [List.nil_append, restOfLiteral, next_behind_cons]
      simp [ends, String.join]
  | cons token more ih =>
      obtain ⟨htoken, hmore⟩ := List.forall_mem_cons.mp inner
      rw [List.cons_append, restOfLiteral, next_behind_cons]
      dsimp only
      rw [if_neg htoken, ih hmore]
      simp [String.append_assoc]

private theorem restOfLiteral_of_none (nonempty : front ≠ [])
    (inner : ∀ token ∈ rest, token.text ≠ ";") :
    restOfLiteral literal (behind file front rest) = .error (exhausted file (front ++ rest)) := by
  induction rest generalizing literal front with
  | nil =>
      rw [restOfLiteral, next_behind_nil nonempty, List.append_nil]
  | cons token more ih =>
      obtain ⟨htoken, hmore⟩ := List.forall_mem_cons.mp inner
      rw [restOfLiteral, next_behind_cons]
      dsimp only
      rw [if_neg htoken, ih (by simp) hmore, List.append_assoc]
      rfl

private theorem code_behind :
    code body (behind file front (first :: rest)) =
      (body ++ first :: (Statement.restOfCode first rest).1,
        behind file (front ++ first :: (Statement.restOfCode first rest).1)
          (Statement.restOfCode first rest).2) := by
  induction rest generalizing body front first with
  | nil =>
      have hend : code (body ++ [first]) (behind file (front ++ [first]) []) =
          (body ++ [first], behind file (front ++ [first]) []) := by
        rw [code, peek_behind]
        rfl
      rw [code, peek_behind, List.head?_cons, forward_behind, peek_behind]
      dsimp only [List.head?_nil]
      rw [hend, ite_self]
      rfl
  | cons next rest ih =>
      have hends : (first.text = ";" ∨ Statement.keywords.contains next.text = true) ↔
          (Statement.isStop first || Statement.keywords.contains next.text) = true := by
        simp [Statement.isStop]
      rw [code, peek_behind, List.head?_cons, forward_behind, peek_behind, Statement.restOfCode]
      dsimp only [List.head?_cons]
      by_cases hstop : first.text = ";"
      · rw [if_pos hstop, if_pos (hends.mp (.inl hstop))]
      · rw [if_neg hstop]
        by_cases hkeyword : Statement.keywords.contains next.text = true
        · rw [if_pos hkeyword, if_pos (hends.mp (.inr hkeyword))]
        · rw [if_neg hkeyword, if_neg (mt hends.mpr (not_or.mpr ⟨hstop, hkeyword⟩)), ih]
          simp

private theorem step_constant {c : Cursor} (opens : keyword.text = Spacing.joined kind) :
    step settings keyword unit c = constant settings kind unit c := by
  cases kind with
  | int => rw [step, opens]; rfl
  | float => rw [step, opens]; rfl

private theorem step_code {c : Cursor} (opens : keyword.text ∉ Statement.keywords) :
    step settings keyword unit c = .ok ({ unit with body := (code unit.body c).1 },
      (code unit.body c).2) := by
  simp only [Statement.keywords, List.mem_cons, List.not_mem_nil, or_false, not_or] at opens
  obtain ⟨h1, h2, h3, h4, h5, h6⟩ := opens
  unfold step
  split
  · exact absurd ‹_› h1
  · exact absurd ‹_› h2
  · exact absurd ‹_› h3
  · exact absurd ‹_› h4
  · exact absurd ‹_› h5
  · exact absurd ‹_› h6
  · rfl

/-- A version keeps the token behind its number when that is on the number's line. -/
private theorem version_of_readBefore {number : Token} {profile : Option Token} {after : List Token}
    (read : (Statement.version keyword number profile).ReadBefore after) :
    version unit (behind file front (keyword :: number :: (profile.toList ++ after))) =
      .ok ({ unit with
        version := (Statement.version keyword number profile).version?.or unit.version },
        behind file (front ++ keyword :: number :: profile.toList) after) := by
  obtain ⟨-, hcount, hon, hoff⟩ := read
  have hnumber : ¬(Text.count32? number.text).isNone = true := by
    simp [Option.isSome_iff_ne_none.mp hcount]
  simp only [version, next_bind_cons]
  rw [if_neg hnumber, peek_behind]
  cases profile with
  | none =>
      have hnone : after.head?.filter (·.line = number.line) = none := by
        rw [Option.filter_eq_none_iff]
        simpa using hoff rfl
      rw [Option.toList_none, List.nil_append, hnone]
      simp [Statement.version?]
      rfl
  | some profile =>
      have hsome : (profile :: after).head?.filter (·.line = number.line) = some profile := by
        simp [hon profile rfl]
      rw [Option.toList_some, List.singleton_append, hsome]
      dsimp only
      rw [next_bind_cons]
      simp [Statement.version?]
      rfl

/-- **A statement that is read is added to the unit, and the cursor moves behind it.** -/
theorem step_of_ok {after : List Token} {s : Statement}
    (read : Statement.read file keyword rest = .ok (s, after)) :
    step settings keyword unit (behind file front (keyword :: rest)) = (do
      let unit ← unit.add settings file s
      return (unit, behind file (front ++ s.tokens) after)) := by
  obtain ⟨htokens, hbefore⟩ := Statement.read_eq_ok_iff.mp read
  cases s with
  | constant kind opening name sign first more stop =>
      obtain ⟨hopens, hstop, hmore⟩ := hbefore
      obtain ⟨rfl, rfl⟩ :
          opening = keyword ∧ name :: sign :: first :: (more ++ stop :: after) = rest := by
        simpa [Statement.tokens] using htokens
      have hliteral (before : List Token)
          (f : String × Cursor → Except BuildError (ShaderUnit × Cursor)) :
          (restOfLiteral first.text (behind file before (more ++ stop :: after)) >>= f) =
            f (String.join ((first :: more).map (·.text)),
              behind file (before ++ (more ++ [stop])) after) := by
        rw [restOfLiteral_of_stop hstop hmore, List.map_cons, String.join_cons]
        rfl
      rw [step_constant hopens, ShaderUnit.add_constant]
      simp only [constant, next_bind_cons, hliteral]
      rw [bind_assoc]
      refine bind_congr_of_ok fun c _ => ?_
      simp [Statement.tokens]
  | precision opening qualifier type stop =>
      obtain ⟨rfl, rfl⟩ : opening = keyword ∧ qualifier :: type :: stop :: after = rest :=
        List.cons.inj htokens
      have hopens : opening.text = "precision" := hbefore
      rw [step, hopens, ShaderUnit.add_precision]
      simp only [precision, next_bind_cons]
      by_cases htype : type.text = "float"
      · simp [htype, Statement.tokens]
        rfl
      · simp [htype, Statement.tokens]
        rfl
  | inclusion opening path =>
      obtain ⟨rfl, rfl⟩ : opening = keyword ∧ path :: after = rest := List.cons.inj htokens
      have hopens : opening.text = "#include" := hbefore
      rw [step, hopens, ShaderUnit.add_inclusion]
      simp only [inclusion, next_bind_cons]
      simp [Statement.tokens]
      rfl
  | version opening number profile =>
      obtain ⟨rfl, rfl⟩ : opening = keyword ∧ number :: (profile.toList ++ after) = rest :=
        List.cons.inj htokens
      rw [step, hbefore.1, ShaderUnit.add_version]
      exact version_of_readBefore hbefore
  | stage opening label found =>
      obtain ⟨rfl, rfl⟩ : opening = keyword ∧ label :: after = rest := List.cons.inj htokens
      obtain ⟨hopens, hstage⟩ := hbefore
      rw [step, hopens, ShaderUnit.add_stage]
      simp only [stage, next_bind_cons, hstage]
      simp [Statement.tokens]
      rfl
  | code opening more =>
      obtain ⟨rfl, rfl⟩ : opening = keyword ∧ more ++ after = rest := List.cons.inj htokens
      obtain ⟨hopens, hends⟩ := hbefore
      have hrest : Statement.restOfCode opening (more ++ after) = (more, after) :=
        Statement.restOfCode_eq_iff.mpr ⟨rfl, hends⟩
      rw [step_code hopens, code_behind, hrest, ShaderUnit.add_code]
      rfl

/-- Behind the last token of a statement that needs more, the last of all tokens is cited. -/
private theorem next_bind_missing {α : Type} (taken : List Token)
    (f : Token × Cursor → Except BuildError α) :
    ((behind file (front ++ keyword :: taken) []).next >>= f) =
      .error (exhausted file (keyword :: taken)) := by
  rw [next_bind_nil (by simp), Statement.exhausted_append file front (by simp)]

/-- A statement of which tokens are missing takes all there are. -/
private theorem step_of_unfinished (unfinished : Statement.Unfinished keyword.text rest) :
    step settings keyword unit (behind file front (keyword :: rest)) =
      .error (exhausted file (keyword :: rest)) := by
  rcases unfinished with ⟨hword, hrest⟩ | ⟨hword, hlength⟩ | ⟨hword, rfl⟩
  · obtain ⟨kind, hkind⟩ : ∃ kind, keyword.text = Spacing.joined kind := by
      rcases List.mem_cons.mp hword with hint | hfloat
      · exact ⟨.int, hint⟩
      · exact ⟨.float, List.mem_singleton.mp hfloat⟩
    rw [step_constant hkind]
    rcases rest with _ | ⟨name, _ | ⟨sign, _ | ⟨first, more⟩⟩⟩
    · simp only [constant, next_bind_cons, next_bind_missing]
    · simp only [constant, next_bind_cons, next_bind_missing, List.append_assoc, List.cons_append,
        List.nil_append]
    · simp only [constant, next_bind_cons, next_bind_missing, List.append_assoc, List.cons_append,
        List.nil_append]
    · have hinner : ∀ token ∈ more, token.text ≠ ";" := hrest
      have hliteral (f : String × Cursor → Except BuildError (ShaderUnit × Cursor)) :
          (restOfLiteral first.text
              (behind file (front ++ [keyword, name, sign, first]) more) >>= f) =
            .error (exhausted file (keyword :: name :: sign :: first :: more)) := by
        rw [restOfLiteral_of_none (by simp) hinner, List.append_assoc,
          Statement.exhausted_append file front (by simp)]
        rfl
      simp only [constant, next_bind_cons, List.append_assoc, List.cons_append, List.nil_append,
        hliteral]
  · rw [step, hword]
    rcases rest with _ | ⟨qualifier, _ | ⟨type, _ | ⟨stop, more⟩⟩⟩
    · simp only [precision, next_bind_cons, next_bind_missing]
    · simp only [precision, next_bind_cons, next_bind_missing, List.append_assoc, List.cons_append,
        List.nil_append]
    · simp only [precision, next_bind_cons, next_bind_missing, List.append_assoc, List.cons_append,
        List.nil_append]
    · simp only [List.length_cons] at hlength
      omega
  · simp only [List.mem_cons, List.not_mem_nil, or_false] at hword
    rcases hword with hword | hword | hword
    · rw [step, hword]
      simp only [inclusion, next_bind_cons, next_bind_missing]
    · rw [step, hword]
      simp only [version, next_bind_cons, next_bind_missing]
    · rw [step, hword]
      simp only [stage, next_bind_cons, next_bind_missing]

/-- **A statement that fails makes the step fail.** -/
theorem step_of_error {error : BuildError}
    (read : Statement.read file keyword rest = .error error) :
    step settings keyword unit (behind file front (keyword :: rest)) = .error error := by
  rcases Statement.read_eq_error_iff.mp read with ⟨hunfinished, rfl⟩ | hfaulty
  · exact step_of_unfinished hunfinished
  · cases hfaulty with
    | version opens fault =>
        rw [step, opens]
        simp only [version, next_bind_cons]
        rw [if_pos (by simp [fault])]
        rfl
    | stage opens fault =>
        rw [step, opens]
        simp only [stage, next_bind_cons, fault]
        rfl

/-- A step is what reading a statement and adding it is. -/
theorem step_behind :
    step settings keyword unit (behind file front (keyword :: rest)) = (do
      let (s, after) ← Statement.read file keyword rest
      let unit ← unit.add settings file s
      return (unit, behind file (front ++ s.tokens) after)) := by
  cases hread : Statement.read file keyword rest with
  | error error => exact step_of_error hread
  | ok found => exact step_of_ok hread

/-- A step takes a token at least. -/
theorem room_step {c c' : Cursor} {unit' : ShaderUnit} (opens : c.peek = some keyword)
    (h : step settings keyword unit c = .ok (unit', c')) : c'.room < c.room := by
  obtain ⟨front, rest, hc⟩ := exists_behind opens
  rw [hc, step_behind] at h
  obtain ⟨⟨s, after⟩, hread, h⟩ := bind_eq_ok_iff.mp h
  obtain ⟨later, -, h⟩ := bind_eq_ok_iff.mp h
  cases h
  have hshorter := Statement.length_of_read hread
  rw [hc]
  simp only [room, behind, List.length_append]
  omega

/-! ### The whole file -/

/-- The unit with the statements from the cursor on. -/
def run (settings : Settings) (unit : ShaderUnit) (c : Cursor) : Except BuildError ShaderUnit :=
  match _opens : c.peek with
  | none => .ok unit
  | some opening =>
    match _read : step settings opening unit c with
    | .ok (unit, c) => run settings unit c
    | .error error => .error error
termination_by c.room
decreasing_by exact room_step _opens _read

/-- The unit of a file's tokens, read at a cursor. -/
def parse (settings : Settings) (path : String) (tokens : List Token) :
    Except BuildError ShaderUnit :=
  run settings (.blank path) ⟨path, tokens, 0⟩

/-- **A run from a cursor on adds the statements of the tokens behind it.** -/
theorem run_behind (tokens : List Token) :
    run settings unit (behind file front tokens) = unit.follow settings file tokens := by
  induction tokens using Reading.ofTokens.induct file generalizing front unit with
  | case1 =>
      rw [run, peek_behind, ShaderUnit.follow_nil]
      rfl
  | case2 keyword rest s after hread ih =>
      rw [run, peek_behind, ShaderUnit.follow_of_ok hread]
      dsimp only [List.head?_cons]
      rw [step_of_ok hread]
      cases unit.add settings file s with
      | error error => rfl
      | ok later => exact ih
  | case3 keyword rest error hread =>
      rw [run, peek_behind, ShaderUnit.follow_of_error hread]
      dsimp only [List.head?_cons]
      rw [step_of_error hread]

/-- **Reading a file at a cursor gives what cutting its tokens into statements first gives.** -/
theorem parse_eq_ofTokens (settings : Settings) (path : String) (tokens : List Token) :
    parse settings path tokens = ShaderUnit.ofTokens settings path tokens := by
  have hstart : (⟨path, tokens, 0⟩ : Cursor) = behind path [] tokens := rfl
  rw [parse, hstart, run_behind, ShaderUnit.follow_blank]

/-- **A file fails for its end only where it ends inside a statement, and cites its last token then;
every other failure stays the same however the file goes on.**  Reading at a cursor and cutting
into statements first fail alike. -/
theorem failure_of_parse {path : String} {tokens : List Token} {error : BuildError}
    (failed : parse settings path tokens = .error error) :
    ShaderUnit.ofTokens settings path tokens = .error error ∧
      (∀ name line text, error = .exhausted name line text →
        EndsInside tokens ∧ name = path ∧
          ∃ last, tokens.getLast? = some last ∧ line = last.line ∧ text = last.text) ∧
      (¬error.IsExhausted → ∀ more, parse settings path (tokens ++ more) = .error error) := by
  have hfollow : (ShaderUnit.blank path).follow settings path tokens = .error error := by
    rw [ShaderUnit.follow_blank, ← parse_eq_ofTokens]
    exact failed
  refine ⟨?_, ?_, ?_⟩
  · rw [← parse_eq_ofTokens]
    exact failed
  · rintro name line text rfl
    rcases ShaderUnit.follow_eq_error hfollow with ⟨hcited, hinside⟩ | ⟨hother, -⟩
    · obtain ⟨last, hlast⟩ := Option.ne_none_iff_exists'.mp
        (mt List.getLast?_eq_none_iff.mp hinside.ne_nil)
      rw [exhausted, hlast] at hcited
      obtain ⟨rfl, rfl, rfl⟩ := BuildError.exhausted.inj hcited
      exact ⟨hinside, rfl, last, hlast, rfl, rfl⟩
    · exact absurd trivial hother
  · intro hother more
    rcases ShaderUnit.follow_eq_error hfollow with ⟨hcited, -⟩ | ⟨-, hstable⟩
    · rw [hcited] at hother
      exact absurd (Statement.isExhausted_exhausted ..) hother
    · rw [parse_eq_ofTokens, ← ShaderUnit.follow_blank]
      exact hstable more

/-- The tokens of a constant without its semicolon, behind a version. -/
def unterminated : List Token :=
  [⟨"main", 1, "#version"⟩, ⟨"main", 1, "300"⟩, ⟨"main", 2, "const_int"⟩, ⟨"main", 2, "N"⟩,
    ⟨"main", 2, "="⟩, ⟨"main", 2, "5"⟩]

/-- The tokens of a version without a number. -/
def misnumbered : List Token := [⟨"main", 1, "#version"⟩, ⟨"main", 1, "es"⟩]

theorem unterminated_failure :
    (parse .empty "main" unterminated = .error (.exhausted "main" 2 "5") ∧
      EndsInside unterminated ∧ unterminated.getLast? = some ⟨"main", 2, "5"⟩) ∧
    ∀ more, parse .empty "main" (misnumbered ++ more) =
      .error (.malformedVersion "main" 1 "es") := by
  have hexhausted : parse .empty "main" unterminated = .error (.exhausted "main" 2 "5") := by
    rw [parse_eq_ofTokens]
    decide +kernel
  have hmalformed : parse .empty "main" misnumbered =
      .error (.malformedVersion "main" 1 "es") := by
    rw [parse_eq_ofTokens]
    decide +kernel
  obtain ⟨-, hends, -⟩ := failure_of_parse hexhausted
  obtain ⟨-, -, hstable⟩ := failure_of_parse hmalformed
  exact ⟨⟨hexhausted, (hends _ _ _ rfl).1, rfl⟩, hstable not_false⟩

end Cursor

end ShaderLink
