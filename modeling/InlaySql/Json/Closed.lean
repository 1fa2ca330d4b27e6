import InlaySql.Json.Functions
import InlaySql.Json.Refusing
import InlaySql.Json.RoundTrip

/-!
# What a call composes

The document a call stands for, without the texts it goes through: a spliced argument stands
for its own document, any other for its value, a double for the number of its text or, when
it is infinite, for an infinite number. A call that returns a text has composed that
document, and the text is parsed as it unless a double that is not finite is left in it.
-/

namespace InlaySql.Json

open List Lib Sql Eval

variable (fromUtf8Lossy : Bytes -> String) (parsePath : String -> Option Path)

/-- The value of the language in a document. -/
inductive Leaf : Value -> Json -> Prop where
  | null : Leaf .null .null
  | integer (value : Int) : Leaf (.integer value) (.int (Int64.ofInt value))
  | real {value read : F64} {written : String} (settled : Rereads read written)
      (finite : isFinite value = true -> written = realToText value)
      (infinite : isFinite value = false -> value.isNan = false ->
        isFinite read = false ∧ (read.bits &&& F64.signBit ≠ 0 ↔ value.bits &&& F64.signBit ≠ 0)) :
      Leaf (.real value) (.real read written)
  | text (value : String) : Leaf (.text value) (.text value)

/-- The effect of one pair of `json_set`; a pair whose path is `NULL` has none. -/
def applyUpdate (mode : PutMode) (doc : Json) (update : Option (Path × Json)) : Json :=
  update.elim doc fun step => put doc step.1 step.2 mode

/-- A removal that may find nothing. -/
def applyRemoval (doc : Json) (path : Path) : Json := (remove doc path).getD doc

mutual

/-- The document a call composes. -/
inductive Denotes : Argument -> Json -> Prop where
  | json {arg value doc} (evaluated : evaluate fromUtf8Lossy parsePath arg = .ok value)
      (parsed : jsonDoc fromUtf8Lossy value = .ok (some doc)) : Denotes (.json arg) doc
  | jsonExtract {arg paths value doc values steps}
      (evaluated : evaluate fromUtf8Lossy parsePath arg = .ok value)
      (parsed : jsonDoc fromUtf8Lossy value = .ok (some doc))
      (evaluatedPaths : evaluateAll fromUtf8Lossy parsePath paths = .ok values)
      (named : jsonPaths fromUtf8Lossy parsePath values = .ok (some steps))
      (several : steps.length ≠ 1) :
      Denotes (.jsonExtract arg paths) (.array (steps.map fun path => (get doc path).getD .null))
  | jsonArray {args nodes} (elements : List.Forall₂ Contributes args nodes) :
      Denotes (.jsonArray args) (.array nodes)
  | jsonObject {pairs members} (each : List.Forall₂ Member pairs members) :
      Denotes (.jsonObject pairs) (.object members)
  | jsonQuote {arg value node} (evaluated : evaluate fromUtf8Lossy parsePath arg = .ok value)
      (leaf : Leaf value node) : Denotes (.jsonQuote arg) node
  | jsonPut {mode arg pairs value doc updates}
      (evaluated : evaluate fromUtf8Lossy parsePath arg = .ok value)
      (parsed : jsonDoc fromUtf8Lossy value = .ok (some doc))
      (each : List.Forall₂ Update pairs updates) :
      Denotes (.jsonPut mode arg pairs) (updates.foldl (applyUpdate mode) doc)
  | jsonRemove {arg paths value doc values steps}
      (evaluated : evaluate fromUtf8Lossy parsePath arg = .ok value)
      (parsed : jsonDoc fromUtf8Lossy value = .ok (some doc))
      (evaluatedPaths : evaluateAll fromUtf8Lossy parsePath paths = .ok values)
      (named : List.Forall₂ (fun value path =>
        jsonPathArg fromUtf8Lossy parsePath value = .ok (some path)) values steps) :
      Denotes (.jsonRemove arg paths) (steps.foldl applyRemoval doc)
  | arrow {left right value name doc path node}
      (evaluated : evaluate fromUtf8Lossy parsePath left = .ok value)
      (evaluatedPath : evaluate fromUtf8Lossy parsePath right = .ok name)
      (parsed : jsonDoc fromUtf8Lossy value = .ok (some doc))
      (named : jsonPathArg fromUtf8Lossy parsePath name = .ok (some path))
      (found : get doc path = some node) : Denotes (.arrow left right) node

/-- The node an argument contributes to a document. -/
inductive Contributes : Argument -> Json -> Prop where
  | plain {arg value node} (isPlain : isJsonProducing arg = false)
      (evaluated : evaluate fromUtf8Lossy parsePath arg = .ok value) (leaf : Leaf value node) :
      Contributes arg node
  | spliced {arg node} (producing : isJsonProducing arg = true) (denotes : Denotes arg node) :
      Contributes arg node
  | null {arg} (producing : isJsonProducing arg = true)
      (evaluated : evaluate fromUtf8Lossy parsePath arg = .ok .null) : Contributes arg .null
  | extracted {arg path value doc name step}
      (evaluated : evaluate fromUtf8Lossy parsePath arg = .ok value)
      (parsed : jsonDoc fromUtf8Lossy value = .ok (some doc))
      (evaluatedPath : evaluate fromUtf8Lossy parsePath path = .ok name)
      (named : jsonPathArg fromUtf8Lossy parsePath name = .ok (some step)) :
      Contributes (.jsonExtract arg [path]) ((get doc step).getD .null)
  | absent {arg path value} (evaluated : evaluate fromUtf8Lossy parsePath arg = .ok value)
      (parsed : jsonDoc fromUtf8Lossy value = .ok none) : Contributes (.jsonExtract arg [path]) .null
  | unnamed {arg path name} (evaluatedPath : evaluate fromUtf8Lossy parsePath path = .ok name)
      (named : jsonPathArg fromUtf8Lossy parsePath name = .ok none) :
      Contributes (.jsonExtract arg [path]) .null

inductive Member : Argument × Argument -> String × Json -> Prop where
  | mk {label value key node}
      (evaluated : evaluate fromUtf8Lossy parsePath label = .ok (.text key))
      (contributes : Contributes value node) : Member (label, value) (key, node)

inductive Update : Argument × Argument -> Option (Path × Json) -> Prop where
  | skipped {path value name} (evaluated : evaluate fromUtf8Lossy parsePath path = .ok name)
      (named : jsonPathArg fromUtf8Lossy parsePath name = .ok none) : Update (path, value) none
  | put {path value name step node} (evaluated : evaluate fromUtf8Lossy parsePath path = .ok name)
      (named : jsonPathArg fromUtf8Lossy parsePath name = .ok (some step))
      (contributes : Contributes value node) : Update (path, value) (some (step, node))

end

/-! ## Leaves -/

/-- A number that stands for what was rendered, an infinite one for a name. -/
def settle (_ : F64) (written : String) : F64 × String :=
  let written := if written = "-Inf" then "-9e999" else
    if written = "Inf" ∨ written = "NaN" then "9e999" else written
  (readF64 written.toList, written)

theorem settle_text {value : F64} {written : String} (texted : RealText value written) :
    settle value written = readText value written := by
  have apart {name : String} (named : Named name) : written ≠ name := by
    rintro rfl
    exact named.not_number texted.1
  simp [settle, readText, apart (.inl rfl), apart (.inr (.inl rfl)), apart (.inr (.inr rfl))]

variable {doc : Json} {value : Value} {values : List Value} {arg : Argument} {args : List Argument}
  {nodes : List Json} {holds : F64 -> String -> Prop} {pairs : List (Argument × Argument)}
  {members : List (String × Json)}

theorem mapReals_settle (texted : doc.Reals RealText) : doc.mapReals settle = doc.reread :=
  mapReals_congr (fun _ _ good => settle_text good) doc texted

theorem settle_settled (settled : doc.Reals Rereads) : doc.mapReals settle = doc :=
  (mapReals_settle (settled.imp fun _ _ good => good.1)).trans (reread_settled settled)

theorem settled_infinite :
    Rereads (readF64 "9e999".toList) "9e999" ∧ Rereads (readF64 "-9e999".toList) "-9e999" := by
  have exponent : Exponent ['e', '9', '9', '9'] :=
    .inr ⟨'e', [], ['9', '9', '9'], rfl, .inl rfl, .inl rfl, by simp, by simp [isDigit]⟩
  have whole : Integral ['9'] := .inr ⟨'9', [], rfl, by decide, by decide, by simp⟩
  refine ⟨⟨⟨?_, by decide +kernel⟩, rfl⟩, ⟨⟨?_, by decide +kernel⟩, rfl⟩⟩
  · exact ⟨[], ['9'], [], ['e', '9', '9', '9'], rfl, .inl rfl, whole, .inl rfl, exponent⟩
  · exact ⟨['-'], ['9'], [], ['e', '9', '9', '9'], rfl, .inr rfl, whole, .inl rfl, exponent⟩

theorem infinite_read : (isFinite (readF64 "9e999".toList) = false ∧
      ¬ (readF64 "9e999".toList).bits &&& F64.signBit ≠ 0) ∧
    isFinite (readF64 "-9e999".toList) = false ∧
      (readF64 "-9e999".toList).bits &&& F64.signBit ≠ 0 := by
  decide +kernel

theorem realToText_infinite {value : F64} (infinite : isFinite value = false) :
    realToText value = if value.isNan then "NaN" else
      if value.bits &&& F64.signBit ≠ 0 then "-Inf" else "Inf" := by
  simp only [realToText, formatG, infinite, Bool.not_false, if_true]
  split_ifs <;> simp

/-- A leaf is rendered, and settled as the value it is; it has a text of the grammar unless
the value is a double that is not finite. -/
theorem jsonLeaf_leaf {node : Json} (made : jsonLeaf value = .ok node) :
    node.Reals Rendered ∧ Leaf value (node.mapReals settle) ∧
      (node.Reals RealText ↔ ∀ real, value = .real real -> isFinite real = true) := by
  cases value with
  | null =>
    cases made
    exact ⟨trivial, .null, by simp [Reals]⟩
  | integer value =>
    cases made
    exact ⟨trivial, .integer value, by simp [Reals]⟩
  | text value =>
    cases made
    exact ⟨trivial, .text value, by simp [Reals]⟩
  | blob value => cases made
  | vector lanes => cases made
  | real value =>
    cases made
    obtain ⟨rendered, texted⟩ := rendered_realToText value
    refine ⟨rendered, ?_, by simpa [Reals] using texted⟩
    rw [mapReals]
    by_cases finite : isFinite value = true
    · rw [settle_text (texted.mpr finite)]
      refine .real ⟨texted.mpr finite, rfl⟩ (fun _ => rfl) fun infinite => ?_
      rw [finite] at infinite
      cases infinite
    · simp only [Bool.not_eq_true] at finite
      have text := realToText_infinite finite
      obtain ⟨plus, minus⟩ := settled_infinite
      obtain ⟨⟨plusInfinite, plusSign⟩, minusInfinite, minusSign⟩ := infinite_read
      have notFinite (isFinite' : isFinite value = true) : False := by
        rw [finite] at isFinite'
        cases isFinite'
      by_cases nan : value.isNan = true
      · rw [if_pos nan] at text
        rw [settle, text, if_neg (by decide), if_pos (by decide)]
        refine .real plus (fun isFinite' => (notFinite isFinite').elim) fun _ number => ?_
        rw [nan] at number
        cases number
      · rw [if_neg nan] at text
        by_cases sign : value.bits &&& F64.signBit ≠ 0
        · rw [if_pos sign] at text
          rw [settle, text, if_pos rfl]
          exact .real minus (fun isFinite' => (notFinite isFinite').elim) fun _ _ =>
            ⟨minusInfinite, fun _ => sign, fun _ => minusSign⟩
        · rw [if_neg sign] at text
          rw [settle, text, if_neg (by decide), if_pos (by decide)]
          exact .real plus (fun isFinite' => (notFinite isFinite').elim) fun _ _ =>
            ⟨plusInfinite, fun there => absurd there plusSign, fun there => absurd there sign⟩

/-! ## Documents and paths -/

theorem jsonDoc_settled (parsed : jsonDoc fromUtf8Lossy value = .ok (some doc)) :
    doc.Reals Rereads := by
  unfold jsonDoc at parsed
  split at parsed
  · cases parsed
  · cases parsed
  · obtain ⟨word, -, parsed⟩ := bind_eq_ok parsed
    split at parsed
    · rename_i read readEq
      cases parsed
      exact settled_of_parse readEq
    · cases parsed

theorem getD_settled {path : Path} (settled : doc.Reals Rereads) :
    ((get doc path).getD .null).Reals Rereads := by
  cases found : get doc path with
  | none => exact trivial
  | some node => exact reals_get settled found

theorem applyRemoval_settled {path : Path} (settled : doc.Reals Rereads) :
    (applyRemoval doc path).Reals Rereads := by
  unfold applyRemoval
  cases removed : remove doc path with
  | none => exact settled
  | some next => exact reals_applyRemove settled removed

theorem removeAll_denotes {next : Json} (settled : doc.Reals Rereads)
    (removed : removeAll fromUtf8Lossy parsePath doc values = .ok (some next)) :
    next.Reals Rereads ∧ ∃ steps, List.Forall₂ (fun value path =>
      jsonPathArg fromUtf8Lossy parsePath value = .ok (some path)) values steps ∧
        next = steps.foldl applyRemoval doc := by
  induction values generalizing doc with
  | nil =>
    cases removed
    exact ⟨settled, [], .nil, rfl⟩
  | cons value values ih =>
    rw [removeAll] at removed
    obtain ⟨path, named, removed⟩ := bind_eq_ok removed
    split at removed
    · cases removed
    · rename_i path
      split at removed
      · cases removed
      · obtain ⟨isSettled, steps, others, rfl⟩ := ih (applyRemoval_settled settled) removed
        exact ⟨isSettled, path :: steps, .cons named others, rfl⟩

theorem applyUpdate_mapReals {f : F64 -> String -> F64 × String} (mode : PutMode) (doc : Json)
    (updates : List (Option (Path × Json))) :
    (updates.foldl (applyUpdate mode) doc).mapReals f =
      (updates.map (Option.map fun step => (step.1, step.2.mapReals f))).foldl (applyUpdate mode)
        (doc.mapReals f) := by
  induction updates generalizing doc with
  | nil => rfl
  | cons update updates ih =>
    rw [foldl_cons, ih, map_cons, foldl_cons]
    congr 1
    cases update with
    | none => rfl
    | some step => exact (put_mapReals doc step.2 step.1 mode).symm

/-! ## Composition -/

/-- What is known of a node that an argument was composed to. -/
structure Composed (arg : Argument) (node : Json) : Prop where
  rendered : node.Reals Rendered
  contributes : Contributes fromUtf8Lossy parsePath arg (node.mapReals settle)
  texted : node.Reals RealText ↔ (isJsonProducing arg = false -> ∀ real,
    evaluate fromUtf8Lossy parsePath arg = .ok (.real real) -> isFinite real = true)

theorem Composed.ofSettled {node : Json} (settled : node.Reals Rereads)
    (producing : isJsonProducing arg = true)
    (contributes : Contributes fromUtf8Lossy parsePath arg node) :
    Composed fromUtf8Lossy parsePath arg node where
  rendered := settled.imp fun _ _ good => .inl good.1
  contributes := by rwa [settle_settled settled]
  texted := by
    refine ⟨fun _ plain => ?_, fun _ => settled.imp fun _ _ good => good.1⟩
    rw [producing] at plain
    cases plain

/-- The pairs of `json_set` in front of a document: what they put, and that the document they
leave is the one the updates leave. -/
structure Applied (mode : PutMode) (doc : Json) (pairs : List (Argument × Argument))
    (result : Json) (updates : List (Option (Path × Json))) : Prop where
  result_eq : result = updates.foldl (applyUpdate mode) doc
  rendered : doc.Reals Rendered -> result.Reals Rendered
  each : List.Forall₂ (Update fromUtf8Lossy parsePath) pairs
    (updates.map (Option.map fun step => (step.1, step.2.mapReals settle)))

theorem forall₂_reals (each : List.Forall₂ (Composed fromUtf8Lossy parsePath) args nodes)
    (imp : ∀ arg node, Composed fromUtf8Lossy parsePath arg node -> node.Reals holds) :
    RealsItems holds nodes := by
  induction each with
  | nil => exact trivial
  | cons composed _ ih => exact ⟨imp _ _ composed, ih⟩

/-- The members of `json_object`, likewise. -/
structure ComposedMember (pair : Argument × Argument) (member : String × Json) : Prop where
  label : evaluate fromUtf8Lossy parsePath pair.1 = .ok (.text member.1)
  composed : Composed fromUtf8Lossy parsePath pair.2 member.2

theorem forall₂_realsMembers
    (each : List.Forall₂ (ComposedMember fromUtf8Lossy parsePath) pairs members)
    (imp : ∀ pair member, ComposedMember fromUtf8Lossy parsePath pair member ->
      member.2.Reals holds) : RealsMembers holds members := by
  induction each with
  | nil => exact trivial
  | @cons pair member pairs members composed _ ih =>
    obtain ⟨key, node⟩ := member
    exact ⟨imp _ _ composed, ih⟩

/-! ## Every call -/

/-- The calls that return a document as its text: all but the extraction of one node. -/
def composes : Argument -> Bool
  | .other _ => false
  | .jsonExtract _ paths => paths.length != 1
  | _ => true

theorem length_evaluateAll (evaluated : evaluateAll fromUtf8Lossy parsePath args = .ok values) :
    values.length = args.length := by
  induction args generalizing values with
  | nil =>
    rw [evaluateAll] at evaluated
    cases evaluated
    rfl
  | cons arg args ih =>
    rw [evaluateAll] at evaluated
    obtain ⟨value, -, evaluated⟩ := bind_eq_ok evaluated
    obtain ⟨others, evaluatedOthers, evaluated⟩ := bind_eq_ok evaluated
    cases evaluated
    rw [length_cons, ih evaluatedOthers, length_cons]

theorem length_jsonPaths {steps : List Path}
    (named : jsonPaths fromUtf8Lossy parsePath values = .ok (some steps)) :
    steps.length = values.length := by
  induction values generalizing steps with
  | nil =>
    rw [jsonPaths] at named
    cases named
    rfl
  | cons value values ih =>
    rw [jsonPaths] at named
    obtain ⟨path, -, named⟩ := bind_eq_ok named
    split at named
    · cases named
    · obtain ⟨others, namedOthers, named⟩ := bind_eq_ok named
      cases others with
      | none => cases named
      | some others =>
        cases named
        rw [length_cons, ih namedOthers, length_cons]

theorem jsonExtractFn_several {result : Value} (several : values.length ≠ 1)
    (extracted : jsonExtractFn fromUtf8Lossy parsePath value values = .ok result) :
    result = .null ∨ ∃ doc steps, jsonDoc fromUtf8Lossy value = .ok (some doc) ∧
      jsonPaths fromUtf8Lossy parsePath values = .ok (some steps) ∧ steps.length ≠ 1 ∧
        result = .text (write (.array (steps.map fun path => (get doc path).getD .null))) := by
  unfold jsonExtractFn at extracted
  obtain ⟨doc, parsed, extracted⟩ := bind_eq_ok extracted
  split at extracted
  · cases extracted
    exact .inl rfl
  · rename_i doc
    obtain ⟨steps, named, extracted⟩ := bind_eq_ok extracted
    split at extracted
    · cases extracted
      exact .inl rfl
    · rename_i path
      exact absurd (length_jsonPaths _ _ named).symm several
    · rename_i steps _
      cases extracted
      exact .inr ⟨doc, steps, parsed, named, by rwa [length_jsonPaths _ _ named], rfl⟩

theorem evaluate_composes (composing : composes arg = true)
    (evaluated : evaluate fromUtf8Lossy parsePath arg = .ok value) :
    value = .null ∨ ∃ word, value = .text word := by
  cases arg with
  | other outcome => cases composing
  | json arg =>
    rw [evaluate] at evaluated
    obtain ⟨inner, -, evaluated⟩ := bind_eq_ok evaluated
    obtain ⟨doc, -, evaluated⟩ := bind_eq_ok evaluated
    split at evaluated <;> cases evaluated
    · exact .inr ⟨_, rfl⟩
    · exact .inl rfl
  | jsonExtract doc paths =>
    rw [evaluate] at evaluated
    obtain ⟨inner, -, evaluated⟩ := bind_eq_ok evaluated
    obtain ⟨values, evaluatedAll, extracted⟩ := bind_eq_ok evaluated
    have several : values.length ≠ 1 := by
      rw [length_evaluateAll _ _ evaluatedAll]
      simpa [composes] using composing
    obtain null | ⟨node, steps, -, -, -, text⟩ := jsonExtractFn_several _ _ several extracted
    · exact .inl null
    · exact .inr ⟨_, text⟩
  | jsonArray args =>
    rw [evaluate] at evaluated
    obtain ⟨items, -, evaluated⟩ := bind_eq_ok evaluated
    cases evaluated
    exact .inr ⟨_, rfl⟩
  | jsonObject pairs =>
    rw [evaluate] at evaluated
    obtain ⟨members, -, evaluated⟩ := bind_eq_ok evaluated
    cases evaluated
    exact .inr ⟨_, rfl⟩
  | jsonQuote arg =>
    rw [evaluate] at evaluated
    obtain ⟨inner, -, evaluated⟩ := bind_eq_ok evaluated
    obtain ⟨node, -, evaluated⟩ := bind_eq_ok evaluated
    cases evaluated
    exact .inr ⟨_, rfl⟩
  | jsonPut mode doc pairs =>
    rw [evaluate] at evaluated
    obtain ⟨inner, -, evaluated⟩ := bind_eq_ok evaluated
    obtain ⟨node, -, evaluated⟩ := bind_eq_ok evaluated
    split at evaluated
    · cases evaluated
      exact .inl rfl
    · obtain ⟨result, -, evaluated⟩ := bind_eq_ok evaluated
      cases evaluated
      exact .inr ⟨_, rfl⟩
  | jsonRemove doc paths =>
    rw [evaluate] at evaluated
    obtain ⟨inner, -, evaluated⟩ := bind_eq_ok evaluated
    obtain ⟨values, -, evaluated⟩ := bind_eq_ok evaluated
    obtain ⟨node, -, evaluated⟩ := bind_eq_ok evaluated
    split at evaluated
    · cases evaluated
      exact .inl rfl
    · obtain ⟨result, -, evaluated⟩ := bind_eq_ok evaluated
      split at evaluated <;> cases evaluated
      · exact .inl rfl
      · exact .inr ⟨_, rfl⟩
  | arrow left right =>
    rw [evaluate] at evaluated
    obtain ⟨inner, -, evaluated⟩ := bind_eq_ok evaluated
    obtain ⟨name, -, evaluated⟩ := bind_eq_ok evaluated
    obtain ⟨node, -, evaluated⟩ := bind_eq_ok evaluated
    split at evaluated
    · cases evaluated
      exact .inl rfl
    · rename_i doc
      obtain ⟨path, -, evaluated⟩ := bind_eq_ok evaluated
      split at evaluated
      · cases evaluated
        exact .inl rfl
      · rename_i path
        cases found : get doc path with
        | none =>
          rw [found] at evaluated
          cases evaluated
          exact .inl rfl
        | some node =>
          rw [found] at evaluated
          cases evaluated
          exact .inr ⟨_, rfl⟩

theorem parsed_settled {read : Json} (settled : doc.Reals Rereads)
    (parsed : parse (write doc) = .ok read) : read = doc := by
  rw [parse_write_settled settled] at parsed
  cases parsed
  rfl

theorem parsed_rendered {read : Json} (rendered : doc.Reals Rendered)
    (parsed : parse (write doc) = .ok read) : read = doc.mapReals settle := by
  have texted := texted_of_parse _ rendered parsed
  rw [parse_write texted] at parsed
  cases parsed
  exact (mapReals_settle texted).symm

theorem jsonComposedValue_other (several : ¬ ∃ doc path, arg = .jsonExtract doc [path]) :
    jsonComposedValue fromUtf8Lossy parsePath arg = (do
      let value <- evaluate fromUtf8Lossy parsePath arg
      if isJsonProducing arg then spliceValue value else jsonLeaf value) := by
  rw [jsonComposedValue]
  rintro doc path rfl
  exact several ⟨doc, path, rfl⟩

theorem composes_of_producing (producing : isJsonProducing arg = true)
    (several : ¬ ∃ doc path, arg = .jsonExtract doc [path]) : composes arg = true := by
  cases arg with
  | other outcome => cases producing
  | jsonExtract arg paths =>
    rw [composes, bne_iff_ne]
    intro one
    obtain ⟨path, rfl⟩ := length_eq_one_iff.mp one
    exact several ⟨arg, path, rfl⟩
  | _ => rfl

theorem composed_extracted {doc path : Argument} {node : Json}
    (made : jsonComposedValue fromUtf8Lossy parsePath (.jsonExtract doc [path]) = .ok node) :
    Composed fromUtf8Lossy parsePath (.jsonExtract doc [path]) node := by
  have nothing : (Json.null).Reals Rereads := trivial
  rw [jsonComposedValue] at made
  obtain ⟨value, inner, made⟩ := bind_eq_ok made
  obtain ⟨doc, isDoc, made⟩ := bind_eq_ok made
  split at made
  · cases made
    exact .ofSettled _ _ nothing rfl (.absent inner isDoc)
  · obtain ⟨name, innerName, made⟩ := bind_eq_ok made
    obtain ⟨step, named, made⟩ := bind_eq_ok made
    split at made <;> cases made
    · exact .ofSettled _ _ nothing rfl (.unnamed innerName named)
    · exact .ofSettled _ _ (getD_settled (jsonDoc_settled _ isDoc)) rfl
        (.extracted inner isDoc innerName named)

mutual

theorem denotes_evaluate (arg : Argument) {word : String} {read : Json}
    (composing : composes arg = true)
    (evaluated : evaluate fromUtf8Lossy parsePath arg = .ok (.text word))
    (parsed : parse word = .ok read) : Denotes fromUtf8Lossy parsePath arg read := by
  cases arg with
  | other outcome => cases composing
  | json arg =>
    rw [evaluate] at evaluated
    obtain ⟨value, inner, evaluated⟩ := bind_eq_ok evaluated
    obtain ⟨doc, isDoc, evaluated⟩ := bind_eq_ok evaluated
    split at evaluated <;> cases evaluated
    rename_i doc
    rw [parsed_settled (jsonDoc_settled _ isDoc) parsed]
    exact .json inner isDoc
  | jsonExtract arg paths =>
    rw [evaluate] at evaluated
    obtain ⟨value, inner, evaluated⟩ := bind_eq_ok evaluated
    obtain ⟨values, evaluatedAll, extracted⟩ := bind_eq_ok evaluated
    have several : values.length ≠ 1 := by
      rw [length_evaluateAll _ _ evaluatedAll]
      simpa [composes] using composing
    obtain null | ⟨doc, steps, isDoc, named, severalSteps, same⟩ :=
      jsonExtractFn_several _ _ several extracted
    · cases null
    · cases same
      have settled : (Json.array (steps.map fun path => (get doc path).getD .null)).Reals
          Rereads := by
        refine realsItems_iff.mpr fun item inside => ?_
        obtain ⟨path, -, rfl⟩ := mem_map.mp inside
        exact getD_settled (jsonDoc_settled _ isDoc)
      rw [parsed_settled settled parsed]
      exact .jsonExtract inner isDoc evaluatedAll named severalSteps
  | jsonArray args =>
    rw [evaluate] at evaluated
    obtain ⟨nodes, made, evaluated⟩ := bind_eq_ok evaluated
    cases evaluated
    have each := composedItems_each args made
    have rendered : (Json.array nodes).Reals Rendered :=
      forall₂_reals _ _ each fun _ _ composed => composed.rendered
    rw [parsed_rendered rendered parsed, mapReals, mapItems_eq]
    refine .jsonArray (forall₂_map_right_iff.mpr ?_)
    exact each.imp fun _ _ composed => composed.contributes
  | jsonObject pairs =>
    rw [evaluate] at evaluated
    obtain ⟨members, made, evaluated⟩ := bind_eq_ok evaluated
    cases evaluated
    have each := composedMembers_each pairs made
    have rendered : (Json.object members).Reals Rendered :=
      forall₂_realsMembers _ _ each fun _ _ member => member.composed.rendered
    rw [parsed_rendered rendered parsed, mapReals, mapMembers_eq]
    refine .jsonObject (forall₂_map_right_iff.mpr ?_)
    exact each.imp fun pair member composed =>
      .mk composed.label composed.composed.contributes
  | jsonQuote arg =>
    rw [evaluate] at evaluated
    obtain ⟨value, inner, evaluated⟩ := bind_eq_ok evaluated
    obtain ⟨node, made, evaluated⟩ := bind_eq_ok evaluated
    cases evaluated
    obtain ⟨rendered, leaf, -⟩ := jsonLeaf_leaf made
    rw [parsed_rendered rendered parsed]
    exact .jsonQuote inner leaf
  | jsonPut mode arg pairs =>
    rw [evaluate] at evaluated
    obtain ⟨value, inner, evaluated⟩ := bind_eq_ok evaluated
    obtain ⟨doc, isDoc, evaluated⟩ := bind_eq_ok evaluated
    split at evaluated
    · cases evaluated
    · rename_i doc
      obtain ⟨result, made, evaluated⟩ := bind_eq_ok evaluated
      cases evaluated
      obtain ⟨updates, applied⟩ := putAll_applied mode pairs made
      have settled := jsonDoc_settled _ isDoc
      have rendered := applied.rendered (settled.imp fun _ _ good => .inl good.1)
      rw [parsed_rendered rendered parsed, applied.result_eq, applyUpdate_mapReals,
        settle_settled settled]
      exact .jsonPut inner isDoc applied.each
  | jsonRemove arg paths =>
    rw [evaluate] at evaluated
    obtain ⟨value, inner, evaluated⟩ := bind_eq_ok evaluated
    obtain ⟨values, evaluatedAll, evaluated⟩ := bind_eq_ok evaluated
    obtain ⟨doc, isDoc, evaluated⟩ := bind_eq_ok evaluated
    split at evaluated
    · cases evaluated
    · obtain ⟨next, removed, evaluated⟩ := bind_eq_ok evaluated
      split at evaluated <;> cases evaluated
      obtain ⟨settled, steps, named, same⟩ :=
        removeAll_denotes _ _ (jsonDoc_settled _ isDoc) removed
      rw [parsed_settled settled parsed, same]
      exact .jsonRemove inner isDoc evaluatedAll named
  | arrow left right =>
    rw [evaluate] at evaluated
    obtain ⟨value, inner, evaluated⟩ := bind_eq_ok evaluated
    obtain ⟨name, innerName, evaluated⟩ := bind_eq_ok evaluated
    obtain ⟨doc, isDoc, evaluated⟩ := bind_eq_ok evaluated
    split at evaluated
    · cases evaluated
    · rename_i doc
      obtain ⟨path, named, evaluated⟩ := bind_eq_ok evaluated
      split at evaluated
      · cases evaluated
      · rename_i path
        cases found : get doc path with
        | none =>
          rw [found] at evaluated
          cases evaluated
        | some node =>
          rw [found] at evaluated
          cases evaluated
          rw [parsed_settled (reals_get (jsonDoc_settled _ isDoc) found) parsed]
          exact .arrow inner innerName isDoc named found
termination_by (sizeOf arg, 0)

theorem jsonComposedValue_composed (arg : Argument) {node : Json}
    (made : jsonComposedValue fromUtf8Lossy parsePath arg = .ok node) :
    Composed fromUtf8Lossy parsePath arg node := by
  have nothing : (Json.null).Reals Rereads := trivial
  by_cases one : ∃ doc path, arg = .jsonExtract doc [path]
  · obtain ⟨doc, path, rfl⟩ := one
    exact composed_extracted fromUtf8Lossy parsePath made
  · rw [jsonComposedValue_other _ _ one] at made
    obtain ⟨value, evaluated, made⟩ := bind_eq_ok made
    by_cases producing : isJsonProducing arg = true
    · rw [if_pos producing] at made
      have composing := composes_of_producing producing one
      obtain rfl | ⟨word, rfl⟩ := evaluate_composes _ _ composing evaluated
      · cases made
        exact .ofSettled _ _ nothing producing (.null producing evaluated)
      · rw [spliceValue] at made
        split at made <;> cases made
        rename_i parsed
        exact .ofSettled _ _ (settled_of_parse parsed) producing
          (.spliced producing (denotes_evaluate arg composing evaluated parsed))
    · rw [if_neg producing] at made
      obtain ⟨rendered, leaf, texted⟩ := jsonLeaf_leaf made
      have plain : isJsonProducing arg = false := by simpa using producing
      refine ⟨rendered, .plain plain evaluated leaf, texted.trans ?_⟩
      constructor
      · intro finite _ real isReal
        rw [evaluated] at isReal
        cases isReal
        exact finite real rfl
      · rintro finite real rfl
        exact finite plain real evaluated
termination_by (sizeOf arg, 1)

theorem composedItems_each (args : List Argument) {nodes : List Json}
    (made : composedItems fromUtf8Lossy parsePath args = .ok nodes) :
    List.Forall₂ (Composed fromUtf8Lossy parsePath) args nodes := by
  cases args with
  | nil =>
    rw [composedItems] at made
    cases made
    exact .nil
  | cons arg args =>
    rw [composedItems] at made
    obtain ⟨node, isNode, made⟩ := bind_eq_ok made
    obtain ⟨others, isOthers, made⟩ := bind_eq_ok made
    cases made
    exact .cons (jsonComposedValue_composed arg isNode) (composedItems_each args isOthers)
termination_by (sizeOf args, 0)

theorem composedMembers_each (pairs : List (Argument × Argument)) {members : List (String × Json)}
    (made : composedMembers fromUtf8Lossy parsePath pairs = .ok members) :
    List.Forall₂ (ComposedMember fromUtf8Lossy parsePath) pairs members := by
  match pairs with
  | [] =>
    rw [composedMembers] at made
    cases made
    exact .nil
  | (label, value) :: pairs =>
    rw [composedMembers] at made
    obtain ⟨key, isLabel, made⟩ := bind_eq_ok made
    split at made
    · obtain ⟨node, isNode, made⟩ := bind_eq_ok made
      obtain ⟨others, isOthers, made⟩ := bind_eq_ok made
      cases made
      exact .cons ⟨isLabel, jsonComposedValue_composed value isNode⟩
        (composedMembers_each pairs isOthers)
    · cases made
termination_by (sizeOf pairs, 0)

theorem putAll_applied (mode : PutMode) (pairs : List (Argument × Argument)) {doc result : Json}
    (made : putAll fromUtf8Lossy parsePath mode doc pairs = .ok result) :
    ∃ updates, Applied fromUtf8Lossy parsePath mode doc pairs result updates := by
  match pairs with
  | [] =>
    rw [putAll] at made
    cases made
    exact ⟨[], rfl, id, .nil⟩
  | (path, value) :: pairs =>
    rw [putAll] at made
    obtain ⟨name, isName, made⟩ := bind_eq_ok made
    obtain ⟨step, named, made⟩ := bind_eq_ok made
    cases step with
    | none =>
      obtain ⟨updates, applied⟩ := putAll_applied mode pairs made
      exact ⟨none :: updates, applied.result_eq, applied.rendered,
        .cons (.skipped isName named) applied.each⟩
    | some step =>
      obtain ⟨node, isNode, made⟩ := bind_eq_ok made
      have composed := jsonComposedValue_composed value isNode
      obtain ⟨updates, applied⟩ := putAll_applied mode pairs made
      refine ⟨some (step, node) :: updates, applied.result_eq, fun rendered => ?_,
        .cons (.put isName named composed.contributes) applied.each⟩
      exact applied.rendered (reals_put rendered composed.rendered)
termination_by (sizeOf pairs, 0)

end

/-! ## Doubles that are not finite -/

/-- A plain argument is no infinite double and no `NaN`. -/
def PlainFinite (arg : Argument) : Prop :=
  isJsonProducing arg = false -> ∀ real,
    evaluate fromUtf8Lossy parsePath arg = .ok (.real real) -> isFinite real = true

/-- What a pair of `json_set` puts, and where. -/
def updateOf (pair : Argument × Argument) : Except Error (Option (Path × Json)) := do
  match <- jsonPathArg fromUtf8Lossy parsePath (<- evaluate fromUtf8Lossy parsePath pair.1) with
  | none => .ok none
  | some path => do
      let node <- jsonComposedValue fromUtf8Lossy parsePath pair.2
      .ok (some (path, node))

/-- No double that is not finite is given as a plain argument and left in the document. -/
def FiniteLeft : Argument -> Prop
  | .jsonArray args => ∀ arg ∈ args, PlainFinite fromUtf8Lossy parsePath arg
  | .jsonObject pairs => ∀ pair ∈ pairs, PlainFinite fromUtf8Lossy parsePath pair.2
  | .jsonQuote arg =>
    ∀ real, evaluate fromUtf8Lossy parsePath arg = .ok (.real real) -> isFinite real = true
  | .jsonPut mode arg pairs => ∀ value doc updates,
      evaluate fromUtf8Lossy parsePath arg = .ok value ->
        jsonDoc fromUtf8Lossy value = .ok (some doc) ->
          pairs.mapM (updateOf fromUtf8Lossy parsePath) = .ok updates ->
            (updates.foldl (applyUpdate mode) doc).Reals fun _ written => ¬ Named written
  | _ => True

theorem putAll_eq {mode : PutMode} {result : Json}
    (made : putAll fromUtf8Lossy parsePath mode doc pairs = .ok result) :
    ∃ updates, pairs.mapM (updateOf fromUtf8Lossy parsePath) = .ok updates ∧
      result = updates.foldl (applyUpdate mode) doc := by
  induction pairs generalizing doc with
  | nil =>
    rw [putAll] at made
    cases made
    exact ⟨[], rfl, rfl⟩
  | cons pair pairs ih =>
    obtain ⟨path, value⟩ := pair
    rw [putAll] at made
    obtain ⟨name, isName, made⟩ := bind_eq_ok made
    obtain ⟨step, named, made⟩ := bind_eq_ok made
    cases step with
    | none =>
      obtain ⟨updates, each, rfl⟩ := ih made
      refine ⟨none :: updates, ?_, rfl⟩
      simp only [mapM_cons, updateOf, isName, ok_bind, named, each]
      rfl
    | some step =>
      obtain ⟨node, isNode, made⟩ := bind_eq_ok made
      obtain ⟨updates, each, rfl⟩ := ih made
      refine ⟨some (step, node) :: updates, ?_, rfl⟩
      simp only [mapM_cons, updateOf, isName, ok_bind, named, isNode, each]
      rfl

theorem texted_items_iff (each : List.Forall₂ (Composed fromUtf8Lossy parsePath) args nodes) :
    RealsItems RealText nodes ↔ ∀ arg ∈ args, PlainFinite fromUtf8Lossy parsePath arg := by
  induction each with
  | nil => simp [RealsItems]
  | cons composed _ ih => simp [RealsItems, ih, composed.texted, PlainFinite]

theorem texted_members_iff
    (each : List.Forall₂ (ComposedMember fromUtf8Lossy parsePath) pairs members) :
    RealsMembers RealText members ↔ ∀ pair ∈ pairs, PlainFinite fromUtf8Lossy parsePath pair.2 := by
  induction each with
  | nil => simp [RealsMembers]
  | @cons pair member pairs members composed _ ih =>
    obtain ⟨key, node⟩ := member
    have texted := composed.composed.texted
    simp only [RealsMembers, mem_cons, forall_eq_or_imp, ih]
    exact and_congr_left' texted

/-- A text that is returned writes a document, whose numbers all have a text of the grammar
exactly when no double that is not finite is left. -/
theorem written_of_evaluate {word : String} (composing : composes arg = true)
    (evaluated : evaluate fromUtf8Lossy parsePath arg = .ok (.text word)) :
    ∃ doc, word = write doc ∧ doc.Reals Rendered ∧
      (doc.Reals RealText ↔ FiniteLeft fromUtf8Lossy parsePath arg) := by
  have ofSettled {doc : Json} (settled : doc.Reals Rereads) :
      ∃ read, write doc = write read ∧ read.Reals Rendered ∧ (read.Reals RealText ↔ True) :=
    ⟨doc, rfl, settled.imp fun _ _ good => .inl good.1,
      iff_true_intro (settled.imp fun _ _ good => good.1)⟩
  cases arg with
  | other outcome => cases composing
  | json arg =>
    rw [evaluate] at evaluated
    obtain ⟨value, -, evaluated⟩ := bind_eq_ok evaluated
    obtain ⟨doc, isDoc, evaluated⟩ := bind_eq_ok evaluated
    split at evaluated <;> cases evaluated
    exact ofSettled (jsonDoc_settled _ isDoc)
  | jsonExtract arg paths =>
    rw [evaluate] at evaluated
    obtain ⟨value, -, evaluated⟩ := bind_eq_ok evaluated
    obtain ⟨values, evaluatedAll, extracted⟩ := bind_eq_ok evaluated
    have several : values.length ≠ 1 := by
      rw [length_evaluateAll _ _ evaluatedAll]
      simpa [composes] using composing
    obtain null | ⟨doc, steps, isDoc, -, -, same⟩ := jsonExtractFn_several _ _ several extracted
    · cases null
    · cases same
      refine ofSettled (realsItems_iff.mpr fun item inside => ?_)
      obtain ⟨path, -, rfl⟩ := mem_map.mp inside
      exact getD_settled (jsonDoc_settled _ isDoc)
  | jsonArray args =>
    rw [evaluate] at evaluated
    obtain ⟨nodes, made, evaluated⟩ := bind_eq_ok evaluated
    cases evaluated
    have each := composedItems_each fromUtf8Lossy parsePath args made
    exact ⟨_, rfl, forall₂_reals _ _ each fun _ _ composed => composed.rendered,
      texted_items_iff _ _ each⟩
  | jsonObject pairs =>
    rw [evaluate] at evaluated
    obtain ⟨members, made, evaluated⟩ := bind_eq_ok evaluated
    cases evaluated
    have each := composedMembers_each fromUtf8Lossy parsePath pairs made
    exact ⟨_, rfl, forall₂_realsMembers _ _ each fun _ _ member => member.composed.rendered,
      texted_members_iff _ _ each⟩
  | jsonQuote arg =>
    rw [evaluate] at evaluated
    obtain ⟨value, inner, evaluated⟩ := bind_eq_ok evaluated
    obtain ⟨node, made, evaluated⟩ := bind_eq_ok evaluated
    cases evaluated
    obtain ⟨rendered, -, texted⟩ := jsonLeaf_leaf made
    refine ⟨node, rfl, rendered, texted.trans ?_⟩
    simp only [FiniteLeft, inner, Except.ok.injEq]
  | jsonPut mode arg pairs =>
    rw [evaluate] at evaluated
    obtain ⟨value, inner, evaluated⟩ := bind_eq_ok evaluated
    obtain ⟨doc, isDoc, evaluated⟩ := bind_eq_ok evaluated
    split at evaluated
    · cases evaluated
    · rename_i doc
      obtain ⟨result, made, evaluated⟩ := bind_eq_ok evaluated
      cases evaluated
      obtain ⟨updates, each, same⟩ := putAll_eq _ _ made
      obtain ⟨_, applied⟩ := putAll_applied fromUtf8Lossy parsePath mode pairs made
      have rendered := applied.rendered ((jsonDoc_settled _ isDoc).imp fun _ _ good => .inl good.1)
      refine ⟨result, rfl, rendered, ?_⟩
      constructor
      · intro texted value' doc' updates' inner' isDoc' each'
        rw [inner] at inner'
        cases inner'
        rw [isDoc] at isDoc'
        cases isDoc'
        rw [each] at each'
        cases each'
        rw [<- same]
        exact texted.imp fun _ _ good named => named.not_number good.1
      · intro finite
        have unnamed := finite value doc updates inner isDoc each
        rw [<- same] at unnamed
        exact rendered.both (fun _ _ good notNamed => good.resolve_right notNamed) result unnamed
  | jsonRemove arg paths =>
    rw [evaluate] at evaluated
    obtain ⟨value, -, evaluated⟩ := bind_eq_ok evaluated
    obtain ⟨values, -, evaluated⟩ := bind_eq_ok evaluated
    obtain ⟨doc, isDoc, evaluated⟩ := bind_eq_ok evaluated
    split at evaluated
    · cases evaluated
    · obtain ⟨next, removed, evaluated⟩ := bind_eq_ok evaluated
      split at evaluated <;> cases evaluated
      exact ofSettled (removeAll_denotes _ _ (jsonDoc_settled _ isDoc) removed).1
  | arrow left right =>
    rw [evaluate] at evaluated
    obtain ⟨value, -, evaluated⟩ := bind_eq_ok evaluated
    obtain ⟨name, -, evaluated⟩ := bind_eq_ok evaluated
    obtain ⟨doc, isDoc, evaluated⟩ := bind_eq_ok evaluated
    split at evaluated
    · cases evaluated
    · rename_i doc
      obtain ⟨path, -, evaluated⟩ := bind_eq_ok evaluated
      split at evaluated
      · cases evaluated
      · rename_i path
        cases found : get doc path with
        | none =>
          rw [found] at evaluated
          cases evaluated
        | some node =>
          rw [found] at evaluated
          cases evaluated
          exact ofSettled (reals_get (jsonDoc_settled _ isDoc) found)

/-- The text a call returns is parsed as the document the call composes, exactly when no
double that is not finite is left in it. -/
theorem text_closed {arg : Argument} {word : String} (composing : composes arg = true)
    (evaluated : evaluate fromUtf8Lossy parsePath arg = .ok (.text word)) :
    (∃ doc, parse word = .ok doc ∧ Denotes fromUtf8Lossy parsePath arg doc) ↔
      FiniteLeft fromUtf8Lossy parsePath arg := by
  obtain ⟨doc, written, rendered, texted⟩ :=
    written_of_evaluate fromUtf8Lossy parsePath composing evaluated
  rw [<- texted]
  constructor
  · rintro ⟨read, parsed, -⟩
    rw [written] at parsed
    exact texted_of_parse _ rendered parsed
  · intro all
    have parsed : parse word = .ok doc.reread := by rw [written, parse_write all]
    exact ⟨_, parsed, denotes_evaluate fromUtf8Lossy parsePath arg composing evaluated parsed⟩

theorem text_closed_nested :
    ∃ doc, parse "[0.5,[\"x\"]]" = .ok doc ∧ Denotes (fun _ => "") (fun _ => none)
      (.jsonArray [.other (.ok (.real ⟨0x3fe0000000000000⟩)), .jsonArray [.other (.ok (.text "x"))]])
        doc := by
  have half : realToText ⟨0x3fe0000000000000⟩ = "0.5" := by decide +kernel
  have inner : parse (write (.array [.text "x"])) = .ok (.array [.text "x"]) :=
    parse_write_settled ⟨trivial, trivial⟩
  have outer : write (.array [.real ⟨0x3fe0000000000000⟩ "0.5", .array [.text "x"]]) =
      "[0.5,[\"x\"]]" := by decide +kernel
  refine (text_closed (fun _ => "") (fun _ => none) rfl ?_).mpr ?_
  · simp [evaluate, composedItems, jsonComposedValue, ok_bind, isJsonProducing, jsonLeaf, spliceValue,
      inner, outer, half, pure, Except.pure]
  · intro arg inside plain real evaluated
    simp only [mem_cons, not_mem_nil, or_false] at inside
    rcases inside with rfl | rfl
    · rw [evaluate] at evaluated
      cases evaluated
      decide
    · cases plain

/-- An infinite element is written as a name, which the parser refuses. -/
theorem text_closed_infinite : evaluate (fun _ => "") (fun _ => none)
      (.jsonArray [.other (.ok (.real ⟨0x7ff0000000000000⟩))]) = .ok (.text "[Inf]") ∧
        ¬ ∃ doc, parse "[Inf]" = .ok doc := by
  have written : write (.array [.real ⟨0x7ff0000000000000⟩ (realToText ⟨0x7ff0000000000000⟩)]) =
      "[Inf]" := by decide +kernel
  obtain ⟨rendered, texted⟩ := rendered_realToText ⟨0x7ff0000000000000⟩
  refine ⟨?_, ?_⟩
  · simp [evaluate, composedItems, jsonComposedValue, ok_bind, isJsonProducing, jsonLeaf, written,
      pure, Except.pure]
  · rintro ⟨doc, parsed⟩
    rw [<- written] at parsed
    have all := texted_of_parse (.array [.real ⟨0x7ff0000000000000⟩
      (realToText ⟨0x7ff0000000000000⟩)]) ⟨rendered, trivial⟩ parsed
    exact absurd (texted.mp all.1) (by decide)

end InlaySql.Json
