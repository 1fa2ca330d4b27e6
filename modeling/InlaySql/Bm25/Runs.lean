import InlaySql.Bm25.Corpus

/-!
# Runs of an index

Whatever is inserted, removed and reloaded in whatever order, the index agrees with the final
corpus.
-/

namespace InlaySql.Bm25

open List Lib Sql Function Bm25Index

variable {isAlphanumeric : Char -> Bool} {bound : Nat} {index : Bm25Index} {texts : Corpus}

namespace Bm25Index

section

variable (agrees : Agrees isAlphanumeric bound index texts)

include agrees

theorem Agrees.terms_size : index.terms.size = (texts.vocabulary isAlphanumeric).length := by
  have stores := agrees.holds.stores
  rw [<- Std.ExtTreeMap.length_keys]
  refine List.Perm.length_eq ((perm_ext_iff_of_nodup Std.ExtTreeMap.nodup_keys
    (nodup_dedup _)).mpr fun term => ?_)
  rw [Std.ExtTreeMap.mem_keys, <- Std.ExtTreeMap.isSome_getElem?_iff_mem, mem_dedup, mem_flatMap]
  constructor
  · intro isNamed
    obtain ⟨slot, isSlot⟩ := Option.isSome_iff_exists.mp isNamed
    obtain ⟨id, doc, isDoc, occurs⟩ :=
      (stores.mentioned_iff isSlot).mp (agrees.holds.tight term slot isSlot)
    obtain ⟨text, held, rfl⟩ : ∃ text, texts[id]? = some text ∧ docOf isAlphanumeric text = doc := by
      simpa [Corpus.docs] using isDoc
    exact ⟨(id, text), Std.ExtTreeMap.mem_toList_iff_getElem?_eq_some.mpr held,
      count_pos_iff.mp occurs⟩
  · rintro ⟨⟨id, text⟩, member, isToken⟩
    have held := Std.ExtTreeMap.mem_toList_iff_getElem?_eq_some.mp member
    exact stores.named id (docOf isAlphanumeric text) term (by simp [Corpus.docs, held])
      (count_pos_iff.mpr isToken)

theorem Agrees.ordinals_size : index.ordinals.size = texts.size := by
  rw [<- Std.ExtTreeMap.length_keys, <- Std.ExtTreeMap.length_keys]
  refine List.Perm.length_eq ((perm_ext_iff_of_nodup Std.ExtTreeMap.nodup_keys
    Std.ExtTreeMap.nodup_keys).mpr fun id => ?_)
  rw [Std.ExtTreeMap.mem_keys, Std.ExtTreeMap.mem_keys, <- Std.ExtTreeMap.isSome_getElem?_iff_mem,
    <- Std.ExtTreeMap.isSome_getElem?_iff_mem, agrees.holds.stores.present id]
  simp [Corpus.docs]

section

variable (wide : bound < 2 ^ 32) (within : texts.Within isAlphanumeric bound)

include wide within

theorem Agrees.storable : index.Storable := by
  have stores := agrees.holds.stores
  have describes := agrees.holds.describes
  have ofDoc {id : RowId} {doc : Doc} (isDoc : texts.docs isAlphanumeric id = some doc) :
      ∃ text, texts[id]? = some text ∧ docOf isAlphanumeric text = doc := by
    simpa [Corpus.docs] using isDoc
  refine ⟨?_, fun entry member => ⟨?_, ?_, fun pair isPair => ?_⟩, ?_, ?_, fun pair isPair => ?_⟩
  · rw [agrees.terms_size]
    exact within.vocabulary
  · obtain ⟨⟨id, frequency⟩, isPair⟩ := exists_mem_of_ne_nil _ (describes.nonempty _ member)
    obtain ⟨doc, isDoc, occurs, -⟩ := (describes.mem entry member id frequency).mp isPair
    obtain ⟨text, held, rfl⟩ := ofDoc isDoc
    exact within.short id text held entry.1 (count_pos_iff.mp occurs)
  · have few : (entry.2.map Prod.fst).toFinset ⊆ texts.keys.toFinset := by
      intro id isRow
      obtain ⟨⟨_, frequency⟩, isPair, rfl⟩ := mem_map.mp (mem_toFinset.mp isRow)
      obtain ⟨doc, isDoc, -⟩ := (describes.mem entry member _ frequency).mp isPair
      obtain ⟨text, held, -⟩ := ofDoc isDoc
      rw [mem_toFinset, Std.ExtTreeMap.mem_keys, <- Std.ExtTreeMap.isSome_getElem?_iff_mem, held]
      rfl
    have counted := Finset.card_le_card few
    rw [toFinset_card_of_nodup (describes.nodup entry member),
      toFinset_card_of_nodup Std.ExtTreeMap.nodup_keys, length_map,
      Std.ExtTreeMap.length_keys] at counted
    exact (counted.trans within.rows).trans_lt wide
  · obtain ⟨doc, isDoc, -, isCount⟩ := (describes.mem entry member pair.1 pair.2).mp isPair
    obtain ⟨text, held, rfl⟩ := ofDoc isDoc
    refine ⟨within.id _ text held, ?_⟩
    rw [isCount]
    exact count_le_length.trans_lt (within.tokens _ text held)
  · rw [agrees.live, agrees.ordinals_size]
  · rw [agrees.ordinals_size]
    exact within.rows.trans_lt wide
  · obtain ⟨doc, isDoc, isLength⟩ := (describes.length pair.1 pair.2).mp isPair
    obtain ⟨text, held, rfl⟩ := ofDoc isDoc
    refine ⟨within.id _ text held, ?_⟩
    rw [isLength]
    exact within.tokens _ text held

theorem Agrees.reload :
    ∃ next, load index.encode = .ok next ∧ Agrees isAlphanumeric bound next texts := by
  have describes := agrees.holds.describes
  have contents : index.contents.length = (texts.vocabulary isAlphanumeric).length := by
    rw [<- agrees.terms_size]
    simp [Bm25Index.contents]
  have measures : index.measures.length = texts.size := by
    rw [<- agrees.ordinals_size]
    simp [Bm25Index.measures]
  obtain ⟨holds, live, total, ids⟩ := holds_loaded describes
    (contents.le.trans within.vocabulary.le) (measures.le.trans (within.rows.trans wide.le))
  have perm : index.measures.Perm (texts.toList.map fun entry =>
      (entry.1, (docOf isAlphanumeric entry.2).length)) := by
    refine (perm_ext_iff_of_nodup describes.measured.of_map (List.Nodup.of_map Prod.fst ?_)).mpr ?_
    · rw [map_map]
      exact (Std.ExtTreeMap.map_fst_toList_eq_keys (t := texts)) ▸ Std.ExtTreeMap.nodup_keys
    · rintro ⟨id, length⟩
      rw [describes.length, mem_map]
      constructor
      · rintro ⟨doc, isDoc, rfl⟩
        obtain ⟨text, held, rfl⟩ : ∃ text, texts[id]? = some text ∧
            docOf isAlphanumeric text = doc := by
          simpa [Corpus.docs] using isDoc
        exact ⟨(id, text), Std.ExtTreeMap.mem_toList_iff_getElem?_eq_some.mpr held, rfl⟩
      · rintro ⟨⟨row, text⟩, member, same⟩
        have held := Std.ExtTreeMap.mem_toList_iff_getElem?_eq_some.mp member
        obtain ⟨rfl, rfl⟩ := Prod.mk.inj same
        exact ⟨docOf isAlphanumeric text, by simp [Corpus.docs, held], rfl⟩
  refine ⟨_, load_encode (agrees.storable wide within), holds, ?_, ?_, ?_⟩
  · rw [live, measures]
  · rw [total, Corpus.length, (perm.map Prod.snd).sum_eq, map_map]
    rfl
  · exact (ids.trans measures.le).trans within.rows

end

end

end Bm25Index

/-! ## Calls -/

inductive Call where
  | insert (id : RowId) (text : String)
  | remove (id : RowId)
  /-- The index is saved and loaded again. -/
  | reload

/-- The corpus after a call. -/
def Call.corpus (texts : Corpus) : Call -> Corpus
  | .insert id text => texts.insert id text
  | .remove id => texts.erase id
  | .reload => texts

def Call.run (isAlphanumeric : Char -> Bool) (index : Bm25Index) :
    Call -> Except (Fault Error) Bm25Index
  | .insert id text => .ok (index.insert isAlphanumeric id text)
  | .remove id => .ok (index.remove id)
  | .reload => load index.encode

theorem Call.keeps (call : Call) (wide : bound < 2 ^ 32)
    (agrees : Agrees isAlphanumeric bound index texts)
    (within : (call.corpus texts).Within isAlphanumeric bound) :
    ∃ next, call.run isAlphanumeric index = .ok next ∧
      Agrees isAlphanumeric bound next (call.corpus texts) := by
  cases call with
  | insert id text => exact ⟨_, rfl, agrees.insert wide.le within⟩
  | remove id => exact ⟨_, rfl, agrees.remove id⟩
  | reload => exact agrees.reload wide within

/-- Calls, each of which leaves the corpus within bounds. -/
def Bounded (isAlphanumeric : Char -> Bool) (bound : Nat) : Corpus -> List Call -> Prop
  | _, [] => True
  | texts, call :: calls => (call.corpus texts).Within isAlphanumeric bound ∧
      Bounded isAlphanumeric bound (call.corpus texts) calls

theorem run_agrees (calls : List Call) (wide : bound < 2 ^ 32)
    (agrees : Agrees isAlphanumeric bound index texts)
    (bounded : Bounded isAlphanumeric bound texts calls) :
    ∃ next, calls.foldlM (Call.run isAlphanumeric) index = .ok next ∧
      Agrees isAlphanumeric bound next (calls.foldl Call.corpus texts) := by
  induction calls generalizing index texts with
  | nil => exact ⟨index, rfl, agrees⟩
  | cons call calls ih =>
    obtain ⟨middle, ran, agreesMiddle⟩ := call.keeps wide agrees bounded.1
    obtain ⟨next, rest, agreesNext⟩ := ih agreesMiddle bounded.2
    refine ⟨next, ?_, agreesNext⟩
    rw [foldlM_cons, ran]
    exact rest

end InlaySql.Bm25
