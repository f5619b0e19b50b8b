import Mathlib.Data.List.Nodup
import MerkleStore.Proofs.Bindings
import MerkleStore.Store.Diff

/-!
# Changes between two maps

What is listed as the difference of two maps: one change for every key that they do not bind
alike, with strictly ascending keys (`Bindings.IsDifference`). Two maps have one difference only.
Its writes make the second map of the first one, and read the other way round it is the
difference from the second map to the first one.

Matching the leaves that only one of the maps has, on either side, gives the difference
(`Bindings.isDifference_changesBetween`).
-/

namespace MerkleStore

namespace Change

variable {m m' : Bindings} {c c' : Change}

/-- The change that takes another one back. -/
def mirror : Change → Change
  | added n => removed n
  | removed n => added n
  | modified old new => modified new old

/-- What has to be written to make a change. -/
def write : Change → Write
  | added n => .put n.key n.value
  | removed n => .remove n.key
  | modified _ n => .put n.key n.value

/-- A change tells what two maps have under its key, and that this is not the same. -/
inductive Tells (m m' : Bindings) : Change → Prop
  | added {key value : Bytes} (hold : m key = none) (hnew : m' key = some value) :
      Tells m m' (.added (.ofPair key value))
  | removed {key value : Bytes} (hold : m key = some value) (hnew : m' key = none) :
      Tells m m' (.removed (.ofPair key value))
  | modified {key old new : Bytes} (hold : m key = some old) (hnew : m' key = some new)
      (hne : old ≠ new) : Tells m m' (.modified (.ofPair key old) (.ofPair key new))

@[simp] theorem mirror_mirror (c : Change) : c.mirror.mirror = c := by cases c <;> rfl

theorem Tells.mirror (hc : c.Tells m m') : c.mirror.Tells m' m := by
  cases hc with
  | added hold hnew => exact .removed hnew hold
  | removed hold hnew => exact .added hnew hold
  | modified hold hnew hne => exact .modified hnew hold hne.symm

theorem Tells.key_mirror (hc : c.Tells m m') : c.mirror.key = c.key := by cases hc <;> rfl

/-- Only a key that is not bound alike has a change. -/
theorem Tells.ne (hc : c.Tells m m') : m c.key ≠ m' c.key := by
  cases hc with
  | @added key value hold hnew =>
      show m key ≠ m' key
      simp [hold, hnew]
  | @removed key value hold hnew =>
      show m key ≠ m' key
      simp [hold, hnew]
  | @modified key old new hold hnew hne =>
      show m key ≠ m' key
      simpa [hold, hnew] using hne

/-- Every key that is not bound alike has a change. -/
theorem exists_tells {key : Bytes} (hne : m key ≠ m' key) :
    ∃ c : Change, c.Tells m m' ∧ c.key = key := by
  cases hold : m key with
  | none =>
      cases hnew : m' key with
      | none => exact absurd (hold.trans hnew.symm) hne
      | some value => exact ⟨_, .added hold hnew, rfl⟩
  | some old =>
      cases hnew : m' key with
      | none => exact ⟨_, .removed hold hnew, rfl⟩
      | some new =>
          refine ⟨_, .modified hold hnew ?_, rfl⟩
          rintro rfl
          exact hne (hold.trans hnew.symm)

/-- What a change is can be read off both maps. -/
theorem Tells.eq_of_key (hc : c.Tells m m') (hc' : c'.Tells m m') (hkey : c.key = c'.key) :
    c = c' := by
  cases hc with
  | @added key value hold hnew =>
      cases hc' <;> obtain rfl : key = _ := hkey <;> simp_all
  | @removed key value hold hnew =>
      cases hc' <;> obtain rfl : key = _ := hkey <;> simp_all
  | @modified key old new hold hnew hne =>
      cases hc' <;> obtain rfl : key = _ := hkey <;> simp_all

/-- What a change writes is what the second map has. -/
theorem Tells.apply_write (hc : c.Tells m m') (x : Bindings) (key : Bytes) :
    c.write.apply x key = if key = c.key then m' key else x key := by
  cases hc <;> simp only [write, Write.apply, Change.key, Terminal.ofPair] <;> split <;> simp_all

end Change

namespace Bindings

variable {m m' : Bindings} {cs cs' : List Change}

/-- The changes from one map to another: one for every key that is not bound alike, and no other,
with strictly ascending keys. -/
structure IsDifference (m m' : Bindings) (cs : List Change) : Prop where
  tells : ∀ c, c ∈ cs ↔ c.Tells m m'
  ascending : cs.Pairwise fun a b => compare a.key b.key = .lt

theorem isDifference_nil (m : Bindings) : IsDifference m m [] where
  tells := fun _ => ⟨fun hc => absurd hc List.not_mem_nil, fun hc => absurd rfl hc.ne⟩
  ascending := .nil

theorem IsDifference.nodup (hd : IsDifference m m' cs) : cs.Nodup := by
  refine hd.ascending.imp fun {a b} hlt heq => ?_
  have heq' : compare a.key b.key = .eq := heq ▸ Std.ReflCmp.compare_self
  rw [hlt] at heq'
  cases heq'

/-- The keys that are not bound alike are those that have a change, and they have one only. -/
theorem IsDifference.existsUnique_iff (hd : IsDifference m m' cs) (key : Bytes) :
    m key ≠ m' key ↔ ∃! c, c ∈ cs ∧ c.key = key := by
  constructor
  · intro hne
    obtain ⟨c, hc, rfl⟩ := Change.exists_tells hne
    refine ⟨c, ⟨(hd.tells c).mpr hc, rfl⟩, fun c' hc' => ?_⟩
    exact ((hd.tells c').mp hc'.1).eq_of_key hc hc'.2
  · rintro ⟨c, ⟨hc, rfl⟩, -⟩
    exact ((hd.tells c).mp hc).ne

/-- Two maps have one difference. -/
theorem IsDifference.unique (hd : IsDifference m m' cs) (hd' : IsDifference m m' cs') :
    cs = cs' := by
  have hperm : cs.Perm cs' := (List.perm_ext_iff_of_nodup hd.nodup hd'.nodup).mpr fun c =>
    (hd.tells c).trans (hd'.tells c).symm
  refine hperm.eq_of_pairwise (fun a b _ _ hab hba => ?_) hd.ascending hd'.ascending
  have hswap : compare a.key b.key = (compare b.key a.key).swap := Std.OrientedCmp.eq_swap
  rw [hab, hba] at hswap
  cases hswap

/-- The difference the other way round. -/
theorem IsDifference.mirror (hd : IsDifference m m' cs) :
    IsDifference m' m (cs.map Change.mirror) where
  tells := by
    intro c
    rw [List.mem_map]
    constructor
    · rintro ⟨c, hc, rfl⟩
      exact ((hd.tells c).mp hc).mirror
    · intro hc
      exact ⟨c.mirror, (hd.tells _).mpr hc.mirror, c.mirror_mirror⟩
  ascending := by
    rw [List.pairwise_map]
    refine hd.ascending.imp_of_mem fun {a b} ha hb hlt => ?_
    rwa [((hd.tells a).mp ha).key_mirror, ((hd.tells b).mp hb).key_mirror]

/-- The writes of changes set just their keys to what the second map has. -/
theorem foldl_write (hcs : ∀ c ∈ cs, c.Tells m m') (x : Bindings) (key : Bytes) :
    (cs.map Change.write).foldl Write.apply x key =
      if key ∈ cs.map Change.key then m' key else x key := by
  induction cs generalizing x with
  | nil => simp
  | cons c cs ih =>
      rw [List.map_cons, List.foldl_cons, ih (fun c' hc' => hcs c' (List.mem_cons_of_mem _ hc')),
        (hcs c List.mem_cons_self).apply_write, List.map_cons]
      by_cases hkey : key = c.key
      · simp [hkey]
      · simp [hkey]

/-- The writes of the difference make the second map of the first one. -/
theorem IsDifference.foldl_write (hd : IsDifference m m' cs) :
    (cs.map Change.write).foldl Write.apply m = m' := by
  funext key
  rw [Bindings.foldl_write fun c hc => (hd.tells c).mp hc]
  split
  · rfl
  · next hkey =>
      by_contra hne
      obtain ⟨c, hc, rfl⟩ := Change.exists_tells hne
      exact hkey (List.mem_map_of_mem ((hd.tells c).mpr hc))

end Bindings

/-! ## Matching leaves by their keys -/

section Matching

variable {old new ns : List Terminal} {n o : Terminal} {key : Bytes}

/-- The values of a map are those of its entries, in their order. -/
theorem values_eq_map_snd {α β : Type} {cmp : α → α → Ordering} [Std.TransCmp cmp]
    (x : Std.ExtTreeMap α β cmp) : x.values = x.toList.map Prod.snd := by
  have hfold : x.values = x.foldr (fun _ v vs => v :: vs) [] := by
    obtain ⟨⟨x⟩⟩ := x
    induction x using Quotient.ind
    rfl
  rw [hfold, Std.ExtTreeMap.foldr_eq_foldr_toList]
  induction x.toList with
  | nil => rfl
  | cons entry entries ih => simp [ih]

/-- Leaves by their keys. -/
def byKey (ns : List Terminal) : Std.ExtTreeMap Bytes Terminal :=
  .ofList (ns.map fun n => (n.key, n))

/-- Of leaves with different keys each is found under its own. -/
theorem getElem?_byKey (hold : (old.map Terminal.key).Nodup) :
    (byKey old)[key]? = some n ↔ n ∈ old ∧ n.key = key := by
  have hkeys : (old.map fun n => (n.key, n)).Pairwise fun a b => ¬ compare a.1 b.1 = .eq := by
    rw [List.pairwise_map]
    refine (List.pairwise_map.mp hold).imp fun hne heq => hne ?_
    exact Std.LawfulEqCmp.eq_of_compare heq
  have hmem {o : Terminal} (ho : o ∈ old) : (byKey old)[o.key]? = some o :=
    Std.ExtTreeMap.getElem?_ofList_of_mem Std.ReflCmp.compare_self hkeys
      (List.mem_map.mpr ⟨o, ho, rfl⟩)
  constructor
  · intro hn
    by_cases hkey : key ∈ old.map Terminal.key
    · obtain ⟨o, ho, rfl⟩ := List.mem_map.mp hkey
      rw [hmem ho, Option.some.injEq] at hn
      exact hn ▸ ⟨ho, rfl⟩
    · rw [byKey, Std.ExtTreeMap.getElem?_ofList_of_contains_eq_false] at hn
      · cases hn
      · simpa using hkey
  · rintro ⟨hn, rfl⟩
    exact hmem hn

/-- What becomes of new leaves of different keys. -/
theorem fst_matchTerminals (x : Std.ExtTreeMap Bytes Terminal)
    (hns : (ns.map Terminal.key).Nodup) :
    (matchTerminals x ns).1 = ns.map fun n =>
      match x[n.key]? with
      | some o => .modified o n
      | none => .added n := by
  induction ns generalizing x with
  | nil => rfl
  | cons n ns ih =>
      rw [List.map_cons, List.nodup_cons] at hns
      rw [matchTerminals, List.map_cons]
      cases hn : x[n.key]? with
      | none => simp only [ih x hns.2]
      | some o =>
          -- the entry that is taken out belongs to none of the leaves behind
          simp only [ih _ hns.2, List.cons.injEq, true_and]
          refine List.map_congr_left fun n' hn' => ?_
          have hne : n.key ≠ n'.key := fun heq => hns.1 (heq ▸ List.mem_map_of_mem hn')
          rw [Std.ExtTreeMap.getElem?_erase, if_neg (by simpa using hne)]

/-- The old leaves that are left have keys that no new leaf has. -/
theorem getElem?_snd_matchTerminals (x : Std.ExtTreeMap Bytes Terminal) (ns : List Terminal)
    (key : Bytes) : (matchTerminals x ns).2[key]? =
      if key ∈ ns.map Terminal.key then none else x[key]? := by
  induction ns generalizing x with
  | nil => simp [matchTerminals]
  | cons n ns ih =>
      rw [matchTerminals, List.map_cons]
      cases hn : x[n.key]? with
      | none =>
          simp only [ih]
          by_cases hkey : key = n.key
          · simp [hkey, hn]
          · simp [hkey]
      | some o =>
          simp only [ih, Std.ExtTreeMap.getElem?_erase]
          by_cases hkey : key = n.key
          · simp [hkey]
          · simp [hkey, Ne.symm hkey]

/-- The old leaves that are left, as a list. -/
theorem mem_values_matchTerminals (hold : (old.map Terminal.key).Nodup) :
    n ∈ (matchTerminals (byKey old) new).2.values ↔
      n ∈ old ∧ n.key ∉ new.map Terminal.key := by
  rw [values_eq_map_snd, List.mem_map]
  simp only [Prod.exists, Std.ExtTreeMap.mem_toList_iff_getElem?_eq_some,
    getElem?_snd_matchTerminals, exists_eq_right]
  constructor
  · rintro ⟨key, hn⟩
    split at hn
    · cases hn
    · next hkey =>
        obtain ⟨hmem, rfl⟩ := (getElem?_byKey hold).mp hn
        exact ⟨hmem, hkey⟩
  · rintro ⟨hmem, hkey⟩
    exact ⟨n.key, by rw [if_neg hkey, (getElem?_byKey hold).mpr ⟨hmem, rfl⟩]⟩

theorem nodup_values_matchTerminals (hold : (old.map Terminal.key).Nodup) (new : List Terminal) :
    ((matchTerminals (byKey old) new).2.values.map Terminal.key).Nodup := by
  have hkeys : (matchTerminals (byKey old) new).2.values.map Terminal.key =
      (matchTerminals (byKey old) new).2.keys := by
    rw [values_eq_map_snd, List.map_map, ← Std.ExtTreeMap.map_fst_toList_eq_keys]
    refine List.map_congr_left ?_
    rintro ⟨key, n⟩ hn
    rw [Std.ExtTreeMap.mem_toList_iff_getElem?_eq_some, getElem?_snd_matchTerminals] at hn
    split at hn
    · cases hn
    · exact ((getElem?_byKey hold).mp hn).2
  rw [hkeys]
  exact Std.ExtTreeMap.nodup_keys

/-- The changes as they are before they are put in order. -/
def matched (old new : List Terminal) : List Change :=
  (new.map fun n =>
    match (byKey old)[n.key]? with
    | some o => .modified o n
    | none => .added n) ++
  (matchTerminals (byKey old) new).2.values.map .removed

theorem changesBetween_perm (hnew : (new.map Terminal.key).Nodup) :
    (changesBetween old new).Perm (matched old new) := by
  refine (List.mergeSort_perm _ _).trans ?_
  rw [matched, ← fst_matchTerminals _ hnew]
  rfl

/-- The changes have the keys of the new leaves, and of the old leaves that are left. -/
theorem map_key_matched (old new : List Terminal) :
    (matched old new).map Change.key = new.map Terminal.key ++
      (matchTerminals (byKey old) new).2.values.map Terminal.key := by
  rw [matched, List.map_append, List.map_map, List.map_map]
  congr 1
  refine List.map_congr_left fun n _ => ?_
  simp only [Function.comp_apply]
  split <;> rfl

theorem nodup_matched (hold : (old.map Terminal.key).Nodup) (hnew : (new.map Terminal.key).Nodup) :
    ((matched old new).map Change.key).Nodup := by
  rw [map_key_matched, List.nodup_append]
  refine ⟨hnew, nodup_values_matchTerminals hold new, fun key hkey key' hkey' => ?_⟩
  rintro rfl
  obtain ⟨n, hn, rfl⟩ := List.mem_map.mp hkey'
  exact ((mem_values_matchTerminals hold).mp hn).2 hkey

/-- Changes with different keys come in strictly ascending order. -/
theorem ascending_changesBetween (hold : (old.map Terminal.key).Nodup)
    (hnew : (new.map Terminal.key).Nodup) :
    (changesBetween old new).Pairwise fun a b => compare a.key b.key = .lt := by
  have hnodup : ((changesBetween old new).map Change.key).Nodup :=
    ((changesBetween_perm hnew).map _).nodup_iff.mpr (nodup_matched hold hnew)
  have hle : (changesBetween old new).Pairwise fun a b => (compare a.key b.key).isLE = true :=
    List.pairwise_mergeSort (fun _ _ _ => Std.TransCmp.isLE_trans)
      (fun a b => by
        have hswap : compare b.key a.key = (compare a.key b.key).swap := Std.OrientedCmp.eq_swap
        rw [hswap]
        cases compare a.key b.key <;> rfl) _
  refine (hle.and (List.pairwise_map.mp hnodup)).imp ?_
  rintro a b ⟨hle, hne⟩
  have hneq : compare a.key b.key ≠ .eq := fun heq => hne (Std.LawfulEqCmp.eq_of_compare heq)
  cases hcompare : compare a.key b.key <;> simp_all

end Matching

namespace Bindings

variable {m m' : Bindings} {old new : List Terminal} {c : Change}

/-- Leaves for just those bindings of one map that another one does not have. -/
structure Beyond (m m' : Bindings) (ns : List Terminal) : Prop where
  mem : ∀ key value, Terminal.ofPair key value ∈ ns ↔ m key = some value ∧ m' key ≠ some value
  eq_ofPair : ∀ n ∈ ns, n = .ofPair n.key n.value
  nodup : (ns.map Terminal.key).Nodup

theorem Beyond.exists_ofPair {ns : List Terminal} (hns : Beyond m m' ns) {n : Terminal}
    (hn : n ∈ ns) : ∃ key value, n = .ofPair key value ∧ m key = some value ∧ m' key ≠ some value :=
  ⟨_, _, hns.eq_ofPair n hn, (hns.mem _ _).mp (hns.eq_ofPair n hn ▸ hn)⟩

/-- The old leaf of a key is the binding of the first map, if the second one has another. -/
theorem Beyond.getElem?_byKey (hold : Beyond m m' old) {key value : Bytes} :
    (byKey old)[key]? = some (.ofPair key value) ↔ m key = some value ∧ m' key ≠ some value := by
  rw [MerkleStore.getElem?_byKey hold.nodup, ← hold.mem]
  exact and_iff_left rfl

theorem Beyond.getElem?_byKey_eq_none (hold : Beyond m m' old) {key : Bytes} :
    (byKey old)[key]? = none ↔ ∀ value, m key = some value → m' key = some value := by
  constructor
  · intro hnone value hm
    by_contra hm'
    rw [hold.getElem?_byKey.mpr ⟨hm, hm'⟩] at hnone
    cases hnone
  · intro hall
    cases ho : (byKey old)[key]? with
    | none => rfl
    | some o =>
        obtain ⟨hmem, hkey⟩ := (MerkleStore.getElem?_byKey hold.nodup).mp ho
        obtain ⟨k, value, rfl, hm, hm'⟩ := hold.exists_ofPair hmem
        obtain rfl : k = key := hkey
        exact absurd (hall value hm) hm'

theorem Beyond.mem_keys (hnew : Beyond m' m new) {key : Bytes} :
    key ∈ new.map Terminal.key ↔ ∃ value, m' key = some value ∧ m key ≠ some value := by
  constructor
  · intro hkey
    obtain ⟨n, hn, rfl⟩ := List.mem_map.mp hkey
    obtain ⟨key, value, rfl, hm', hm⟩ := hnew.exists_ofPair hn
    exact ⟨value, hm', hm⟩
  · rintro ⟨value, hvalue⟩
    exact List.mem_map.mpr ⟨_, (hnew.mem key value).mpr hvalue, rfl⟩

/-- A matched change tells what became of its key. -/
theorem tells_of_mem_matched (hold : Beyond m m' old) (hnew : Beyond m' m new)
    (hc : c ∈ matched old new) : c.Tells m m' := by
  rcases List.mem_append.mp hc with hc | hc
  · obtain ⟨n, hn, rfl⟩ := List.mem_map.mp hc
    obtain ⟨key, value, rfl, hm', hm⟩ := hnew.exists_ofPair hn
    simp only [Terminal.ofPair]
    cases ho : (byKey old)[key]? with
    | none =>
        -- another binding in the first map would have left an old leaf
        refine .added (Option.eq_none_iff_forall_ne_some.mpr fun value' hvalue' => ?_) hm'
        have hkept := hold.getElem?_byKey_eq_none.mp ho value' hvalue'
        exact hm (hvalue'.trans (hkept.symm.trans hm'))
    | some o =>
        obtain ⟨hmem, hkey⟩ := (MerkleStore.getElem?_byKey hold.nodup).mp ho
        obtain ⟨k, value', rfl, hm₀, hm₀'⟩ := hold.exists_ofPair hmem
        obtain rfl : k = key := hkey
        refine .modified hm₀ hm' fun heq => ?_
        exact hm₀' (heq ▸ hm')
  · obtain ⟨o, ho, rfl⟩ := List.mem_map.mp hc
    obtain ⟨hmem, hkey⟩ := (mem_values_matchTerminals hold.nodup).mp ho
    obtain ⟨key, value, rfl, hm, hm'⟩ := hold.exists_ofPair hmem
    -- another binding in the second map would have been a new leaf
    refine .removed hm (Option.eq_none_iff_forall_ne_some.mpr fun value' hvalue' => ?_)
    refine hkey (hnew.mem_keys.mpr ⟨value', hvalue', fun heq => ?_⟩)
    exact hm' (hvalue'.trans (heq.symm.trans hm))

/-- Whatever became of a key is among the matched changes. -/
theorem mem_matched_of_tells (hold : Beyond m m' old) (hnew : Beyond m' m new)
    (hc : c.Tells m m') : c ∈ matched old new := by
  rw [matched, List.mem_append, List.mem_map, List.mem_map]
  cases hc with
  | @added key value hm hm' =>
      refine .inl ⟨.ofPair key value, (hnew.mem key value).mpr ⟨hm', by simp [hm]⟩, ?_⟩
      have hnone : (byKey old)[key]? = none :=
        hold.getElem?_byKey_eq_none.mpr fun _ hvalue => by simp [hm] at hvalue
      simp only [Terminal.ofPair, hnone]
  | @removed key value hm hm' =>
      refine .inr ⟨.ofPair key value, (mem_values_matchTerminals hold.nodup).mpr ⟨?_, ?_⟩, rfl⟩
      · exact (hold.mem key value).mpr ⟨hm, by simp [hm']⟩
      · rw [hnew.mem_keys]
        simp [Terminal.ofPair, hm']
  | @modified key value value' hm hm' hne =>
      refine .inl ⟨.ofPair key value', (hnew.mem key value').mpr ⟨hm', by simp [hm, hne]⟩, ?_⟩
      have hsome : (byKey old)[key]? = some (.ofPair key value) :=
        hold.getElem?_byKey.mpr ⟨hm, by simp [hm', hne.symm]⟩
      simp only [Terminal.ofPair] at hsome ⊢
      simp only [hsome]

/-- Matching leaves of either side that only one of the maps has gives the difference. -/
theorem isDifference_changesBetween (hold : Beyond m m' old) (hnew : Beyond m' m new) :
    IsDifference m m' (changesBetween old new) where
  tells := fun _ => (changesBetween_perm hnew.nodup).mem_iff.trans
    ⟨tells_of_mem_matched hold hnew, mem_matched_of_tells hold hnew⟩
  ascending := ascending_changesBetween hold.nodup hnew.nodup

end Bindings

end MerkleStore
