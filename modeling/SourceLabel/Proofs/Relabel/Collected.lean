import SourceLabel.Proofs.Relabel.Pass
import SourceLabel.Proofs.Relabel.Patching

/-!
# What the first pass collects

The keys of a file are all different, since each begins with the key of the container around it and goes on
with a position of its own. So after the first pass the pool has, under the key of every class, what
relabelling that class gives.
-/
namespace SourceLabel

namespace Walk

/-! ## Leaves and their keys -/

/-- The leaf that an event is about. -/
def leaf? : Except Error Event → Option Leaf
  | .ok (.leaf l) => some l
  | _ => none

/-- The leaves among the events. -/
def leaves (events : List (Except Error Event)) : List Leaf :=
  events.filterMap leaf?

@[simp] theorem leaves_append (xs ys : List (Except Error Event)) : leaves (xs ++ ys) = leaves xs ++ leaves ys :=
  List.filterMap_append

theorem leaves_split (event : Except Error Event) (events : List (Except Error Event)) :
    leaves (event :: events) = leaves [event] ++ leaves events :=
  leaves_append [event] events

namespace Tree

@[simp] theorem leaves_leaf (l : Leaf) : leaves (preorder (.leaf l)) = [l] := rfl

@[simp] theorem leaves_broken (e : Error) : leaves (preorder (.broken e)) = [] := rfl

@[simp] theorem leaves_container (c : Opened) (entries : List Tree) :
    leaves (preorder (.container c entries)) = leaves (preorderAll entries) := by
  have hp : preorder (.container c entries) =
      [.ok (.enter c)] ++ (preorderAll entries ++ [.ok (.leave c)]) := rfl
  rw [hp, leaves_append, leaves_append]
  exact List.append_nil _

@[simp] theorem leaves_cons (t : Tree) (ts : List Tree) :
    leaves (preorderAll (t :: ts)) = leaves t.preorder ++ leaves (preorderAll ts) :=
  leaves_append _ _

theorem child_prefix_inj {key k : EntryKey} {i j : Nat} (hi : key.child i <+: k)
    (hj : key.child j <+: k) : i = j := by
  have hl : (key.child i).length ≤ (key.child j).length := by simp [EntryKey.child]
  have hp := List.prefix_of_prefix_length_le hi hj hl
  have he := hp.eq_of_length (by simp [EntryKey.child])
  simpa [EntryKey.child] using he

mutual

/-- All leaves of a tree lie under its key, each under a key of its own. -/
theorem keys_of_at (path : NestedPath) (key : EntryKey) (header? : Option Zip.Entry) :
    (t : Tree) → t.At path key header? → (∀ l ∈ leaves t.preorder, key <+: l.key) ∧ ((leaves t.preorder).map Leaf.key).Nodup
  | .leaf l, h => by
    rw [leaves_leaf]
    refine ⟨fun l' hl' => ?_, List.pairwise_singleton _ _⟩
    have hk : l'.key = key := List.mem_singleton.mp hl' ▸ h.2.1
    exact hk ▸ List.prefix_rfl
  | .container c entries, h => by
    rw [leaves_container]
    obtain ⟨hk, hn⟩ := keys_of_allAt path key 0 entries h.2
    refine ⟨fun l hl => ?_, hn⟩
    obtain ⟨i, -, hi⟩ := hk l hl
    exact (List.prefix_append key [i]).trans hi
  | .broken e, _ => by
    rw [leaves_broken]
    exact ⟨nofun, List.nodup_nil⟩

theorem keys_of_allAt (path : NestedPath) (key : EntryKey) (index : Nat) :
    (ts : List Tree) → AllAt path key index ts → (∀ l ∈ leaves (preorderAll ts), ∃ i, index ≤ i ∧ key.child i <+: l.key) ∧
      ((leaves (preorderAll ts)).map Leaf.key).Nodup
  | [], _ => by
    exact ⟨nofun, List.nodup_nil⟩
  | t :: ts, h => by
    rw [leaves_cons]
    obtain ⟨⟨header, ht⟩, hts⟩ := h
    obtain ⟨hk, hn⟩ := keys_of_at _ _ _ t ht
    obtain ⟨hk', hn'⟩ := keys_of_allAt path key (index + 1) ts hts
    constructor
    · intro l hl
      rcases List.mem_append.mp hl with hl | hl
      · exact ⟨index, Nat.le_refl _, hk l hl⟩
      · obtain ⟨i, hi, hp⟩ := hk' l hl
        exact ⟨i, by omega, hp⟩
    · rw [List.map_append]
      refine List.nodup_append.mpr ⟨hn, hn', ?_⟩
      intro a ha b hb he
      obtain ⟨l, hl, rfl⟩ := List.mem_map.mp ha
      obtain ⟨l', hl', rfl⟩ := List.mem_map.mp hb
      obtain ⟨i, hi, hp⟩ := hk' l' hl'
      have := child_prefix_inj (hk l hl) (he ▸ hp)
      omega

end

end Tree
end Walk

namespace Relabel

open Walk Session Result

/-! ## The pool -/

@[simp] theorem ClassPool.get?_insert (p : ClassPool) (key key' : EntryKey) (unit : PooledClass) :
    (p.insert key unit).2.get? key' = if key = key' then some unit else p.get? key' := by
  unfold ClassPool.insert ClassPool.get?
  rw [Std.HashMap.getElem?_insert]
  simp only [beq_iff_eq]

/-- The pool has, under the key of the leaf, the class that relabelling gives, if the leaf is a class. -/
def Pooled (policy : Policy) (pool : ClassPool) (l : Leaf) : Prop :=
  l.isClass = true →
    ∃ p, patch policy l = .ok p ∧ pool.get? l.key = some ⟨l.path, p.classFile, p.change = .changed⟩

/-- Collecting changes what is under the keys of the events only. -/
theorem pooled_of_feed {policy : Policy} {events : List (Except Error Event)} {c c' : Collection}
    (h : feed (Collection.step policy) c events = .ok c')
    (hn : ((leaves events).map Leaf.key).Nodup) :
    (∀ key, key ∉ (leaves events).map Leaf.key → c'.pool.get? key = c.pool.get? key) ∧
      ∀ l ∈ leaves events, Pooled policy c'.pool l := by
  induction events generalizing c with
  | nil =>
    obtain rfl := Except.ok.inj h
    exact ⟨fun _ _ => rfl, nofun⟩
  | cons event events ih =>
    cases event with
    | error e => exact nomatch h
    | ok event =>
      obtain ⟨c₁, hs, hrest⟩ := feed_cons_eq_ok.mp h
      cases event with
      | enter container | leave container =>
        obtain rfl := Except.ok.inj hs
        exact ih hrest hn
      | leaf l =>
        have hl : leaves (.ok (.leaf l) :: events) = l :: leaves events := rfl
        rw [hl, List.map_cons] at hn ⊢
        obtain ⟨hnot, hn⟩ := List.nodup_cons.mp hn
        obtain ⟨hother, hpooled⟩ := ih hrest hn
        simp only [Collection.step] at hs
        by_cases hc : l.isClass = true
        · rw [if_pos hc] at hs
          rcases hp : patch policy l with e | p
          · simp [hp] at hs
          · simp only [hp] at hs
            obtain rfl := Except.ok.inj hs
            have hget : c'.pool.get? l.key = some ⟨l.path, p.classFile, p.change = .changed⟩ := by
              rw [hother l.key hnot]
              simp [Collection.take]
            constructor
            · intro key hkey
              rw [List.mem_cons, not_or] at hkey
              rw [hother key hkey.2]
              simp only [Collection.take, ClassPool.get?_insert, if_neg (Ne.symm hkey.1)]
            · intro l' hl'
              rcases List.mem_cons.mp hl' with rfl | hl'
              · exact fun _ => ⟨p, hp, hget⟩
              · exact hpooled l' hl'
        · rw [if_neg hc] at hs
          obtain rfl := Except.ok.inj hs
          constructor
          · intro key hkey
            rw [List.mem_cons, not_or] at hkey
            exact hother key hkey.2
          · intro l' hl'
            rcases List.mem_cons.mp hl' with rfl | hl'
            · exact fun hc' => absurd hc' hc
            · exact hpooled l' hl'

/-- The first pass pools every class of the file. -/
theorem pooled_of_file {policy : Policy} {name : String} {file : Bytes} {c : Collection}
    (h : feed (Collection.step policy) {} (Tree.ofFile name file).preorder = .ok c) :
    ∀ l ∈ leaves (Tree.ofFile name file).preorder, Pooled policy c.pool l :=
  (pooled_of_feed h (Tree.keys_of_at _ _ _ _ (Tree.ofFile_at name file)).2).2

/-- The first pass ends well if everything can be read and every class relabelled. -/
theorem exists_feed_collection {policy : Policy} {events : List (Except Error Event)}
    (hread : ∀ e, .error e ∉ events)
    (hpatch : ∀ l ∈ leaves events, l.isClass = true → ∃ p, patch policy l = .ok p) (c : Collection) :
    ∃ c', feed (Collection.step policy) c events = .ok c' := by
  induction events generalizing c with
  | nil => exact ⟨c, rfl⟩
  | cons event events ih =>
    cases event with
    | error e => exact absurd List.mem_cons_self (hread e)
    | ok event =>
      have hstep : ∃ c₁, (Collection.step policy c event).1 = .ok c₁ := by
        cases event with
        | enter container | leave container => exact ⟨c, rfl⟩
        | leaf l =>
          simp only [Collection.step]
          by_cases hc : l.isClass = true
          · obtain ⟨p, hp⟩ := hpatch l List.mem_cons_self hc
            exact ⟨c.take l p, by rw [if_pos hc, hp]⟩
          · exact ⟨c, by rw [if_neg hc]⟩
      obtain ⟨c₁, hs⟩ := hstep
      obtain ⟨c', hrest⟩ := ih (fun e he => hread e (List.mem_cons_of_mem _ he))
        (fun l hl => hpatch l (by rw [leaves_split]; exact List.mem_append_right _ hl)) c₁
      exact ⟨c', feed_cons_eq_ok.mpr ⟨c₁, hs, hrest⟩⟩

/-! ## However the first pass ends -/

theorem failsWith_patch (policy : Policy) (l : Leaf) : FailsWith Ordinary (patch policy l) := by
  have hcontents : FailsWith Ordinary l.contents := fun e he => .of_malformed ⟨_, l.failsWith_contents e he⟩
  unfold patch
  refine hcontents.bind fun data _ => ?_
  split
  · exact .error (.classFile _ _)
  · intro e he
    obtain ⟨cause, rfl⟩ := failsWith_relabel policy l.path _ e he
    exact .classFile _ cause

theorem takes_collection (name : String) (policy : Policy) :
    Takes name (fun _ => True) Ordinary (Collection.step policy) := by
  refine ⟨fun c event _ _ => ?_, fun _ _ _ _ _ _ => trivial⟩
  cases event with
  | enter container | leave container => exact .ok c
  | leaf l =>
    unfold Collection.step
    dsimp only
    split
    · split
      · next e he => exact .error (failsWith_patch policy l e he)
      · exact .ok _
    · exact .ok c

theorem obeys_collect {R : World → World → Prop} {P : Error → Prop} (hR : World.Lasting R)
    (hP : ∀ e, Ordinary e → P e) (o : Options) (input : String) : Obeys R P (o.collect input) := by
  have htakes := takes_collection (Files.fileName input) o.policy
  unfold Options.collect
  refine obeys_bind hR (obeys_startPass hR o 1) fun _ _ _ _ => ?_
  refine obeys_walkOver hR hP ⟨?_, htakes.keeps⟩ trivial
  exact fun c event hc hevent e he => hP e (htakes.fails c event hc hevent e he)

end Relabel
end SourceLabel
