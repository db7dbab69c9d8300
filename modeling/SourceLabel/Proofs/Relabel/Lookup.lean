import SourceLabel.Proofs.ClassFile.References
import SourceLabel.Proofs.Relabel.Limit

/-!
# Each entry finds its own class

The second pass looks up classes that the first has put into the pool. Both go over the same tree, and a key
is the way down this tree by positions, so no name matters: keys are used once, and what is found under the
key of an entry was read from that entry.
-/
namespace SourceLabel.Relabel

open Walk Tree Session Result

/-- What becomes of the pool in a run over a file with these bytes, from a world on. -/
structure FindsOwn (o : Options) (input output : String) (b : Bytes) (w : World) : Prop where
  /-- Each entry lies under the key of its container followed by its position there, whatever it is called. -/
  placed : (ofFile (Files.fileName input) b).At ⟨Files.fileName input, []⟩ [] none
  /-- Whatever has been collected before an entry, nothing is in the pool under its key. -/
  fresh : ∀ front l back c unit, (ofFile (Files.fileName input) b).preorder = front ++ .ok (.leaf l) :: back →
    feed (Collection.step o.policy) {} front = .ok c → (c.pool.insert l.key unit).1 = none
  /-- After the first pass each class is in the pool, under the key of the entry that it was read from. -/
  own : ∀ c w₁, Ends (o.collect input) w c w₁ →
    ∀ l ∈ leaves (ofFile (Files.fileName input) b).preorder, Pooled o.policy c.pool l
  /-- A later pass meets the entries of the same tree, unless it is interrupted. -/
  again : ∀ w₂ place (pool : ClassPool) a, w₂.Steady input place b →
    Interrupted o (outcome (o.walkOver input (Assembly.step pool) a) w₂).1
        (outcome (o.walkOver input (Assembly.step pool) a) w₂).2 ∨
      (outcome (o.walkOver input (Assembly.step pool) a) w₂).1 =
        feed (Assembly.step pool) a (ofFile (Files.fileName input) b).preorder
  /-- No class is missing. -/
  never : ∀ path, (outcome (o.run input output) w).1 ≠ .error (.classNotPooled path)

theorem Ordinary.ne_classNotPooled {e : Error} (h : Ordinary e) (path : String) : e ≠ .classNotPooled path := by
  cases h with
  | io fault => exact nofun
  | container path reason => exact nofun
  | classFile path cause => exact nofun
  | cancelled => exact nofun

theorem Excused.ne_classNotPooled {o : Options} {d : Device} {output : String} {e : Error}
    (h : Excused o d output e) (path : String) : e ≠ .classNotPooled path := by
  cases h with
  | limit => exact nofun
  | limitAt path => exact nofun
  | store _ => exact nofun
  | device h =>
    obtain ⟨_, a, fault, -, rfl⟩ := h
    exact (Ordinary.of_device a fault).ne_classNotPooled path
  | stopped _ => exact nofun

/-- A key of the tree is not in the pool before its entry is met. -/
theorem get?_eq_none_of_feed {policy : Policy} {name : String} {b : Bytes} {l : Leaf}
    {front back : List (Except Error Event)} {c : Collection}
    (hsplit : (ofFile name b).preorder = front ++ .ok (.leaf l) :: back)
    (h : feed (Collection.step policy) {} front = .ok c) : c.pool.get? l.key = none := by
  obtain ⟨-, hn⟩ := keys_of_at _ _ _ _ (ofFile_at name b)
  have hl : leaves (.ok (.leaf l) :: back) = l :: leaves back := rfl
  rw [hsplit, leaves_append, hl, List.map_append, List.nodup_append] at hn
  obtain ⟨hfront, -, hdisjoint⟩ := hn
  have hnot : l.key ∉ (leaves front).map Leaf.key :=
    fun hmem => hdisjoint _ hmem l.key (List.mem_map_of_mem List.mem_cons_self) rfl
  rw [(pooled_of_feed h hfront).1 l.key hnot]
  exact Std.HashMap.getElem?_empty

/-- As long as the input stays as it is, each key is put into the pool once, each entry finds the class that
was read from it, and the run does not fail for want of a class. -/
theorem findsOwn {o : Options} {input : String} {place : Place} {b : Bytes} {w : World}
    (hw : w.Steady input place b) (output : String) : FindsOwn o input output b w where
  placed := ofFile_at _ _
  fresh front l back c unit hsplit hfeed := get?_eq_none_of_feed hsplit hfeed
  own c w₁ hcollect := pooled_of_file (feed_of_ends_collect hw hcollect)
  again w₂ place' pool a hw₂ := outcome_walkOver o _ _ hw₂
  never path he := by
    have hR := World.lasting_steady input place b
    rcases fails_run_steps he with he | ⟨c, w₁, hcollect, he⟩
    · have hordinary := (obeys_collect World.lasting_true (fun _ he => he) o input).fails _ _ he
      exact hordinary.ne_classNotPooled path rfl
    · have hstart := hR.reach w .collecting (.collecting input) hw
      have hbetween := hR.reach _ .writing (.writing output)
        ((steady_of_ends_collect hstart hcollect).meet (.told (.collected c.parsed c.relabelled c.unlabelled)))
      exact (excused_writeOutput hstart hcollect hbetween _ he).ne_classNotPooled path rfl

/-- The world that holds an archive with two classes, whose entries have one name. -/
def twinWorld : World where
  files := {
    nodes := [(["in.jar"], .file (Zip.packAll [(⟨"A.class", by decide, by decide⟩, ClassFile.sharedLabel.toBytes),
      (⟨"A.class", by decide, by decide⟩, ClassFile.sharedName.toBytes)]))] }

theorem findsOwn_twinWorld :
    ∃ b, twinWorld.Steady "in.jar" ["in.jar"] b ∧ FindsOwn {} "in.jar" "out.jar" b twinWorld := by
  have hopen : twinWorld.files.openFile "in.jar" = .ok ["in.jar"] := by decide +kernel
  have hw := World.Unshared.steady (w := twinWorld) (fun _ _ => rfl) ⟨hopen, rfl⟩
  exact ⟨_, hw, findsOwn hw "out.jar"⟩

end SourceLabel.Relabel
