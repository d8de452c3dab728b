import Gemv.Proofs.CommandRuns
import Gemv.Proofs.ListingRoundTrip

/-! The binary form of a program.

The four bytes of a word determine it and are determined by it (`ofWord_inj`, `ofWord_wordAt`), so
whole words in byte sequences are the sequences whose length is a multiple of four. A binary program
is read with the configuration of the engine it is meant for; its listing has that configuration in
it, so both forms lead to the same program. -/
namespace Gemv

namespace Bytes

theorem ofWord_inj {w v : UInt32} (h : ofWord w = ofWord v) : w = v := by
  have hw := w.toNat_lt
  have hv := v.toNat_lt
  simp only [ofWord, List.cons.injEq, ← UInt8.toNat_inj, UInt8.toNat_ofNat'] at h
  rw [← UInt32.toNat_inj]
  omega

theorem ofWord_wordAt (bytes : ByteArray) (i : Nat) :
    ofWord (wordAt bytes i) =
      [byteAt bytes i, byteAt bytes (i + 1), byteAt bytes (i + 2), byteAt bytes (i + 3)] := by
  have h0 := (byteAt bytes i).toNat_lt
  have h1 := (byteAt bytes (i + 1)).toNat_lt
  have h2 := (byteAt bytes (i + 2)).toNat_lt
  have h3 := (byteAt bytes (i + 3)).toNat_lt
  simp only [ofWord, wordAt, UInt32.toNat_ofNat', List.cons.injEq, ← UInt8.toNat_inj,
    UInt8.toNat_ofNat', and_true]
  omega

theorem length_flatMap_ofWord (ws : List UInt32) : (ws.flatMap ofWord).length = 4 * ws.length := by
  induction ws with
  | nil => rfl
  | cons w ws ih =>
      rw [List.flatMap_cons, List.length_append, ih, List.length_cons]
      simp only [ofWord, List.length_cons, List.length_nil]
      omega

theorem size_ofWords (ws : List UInt32) : (ofWords ws).size = 4 * ws.length :=
  length_flatMap_ofWord ws

theorem flatMap_ofWord_inj {ws vs : List UInt32} (h : ws.flatMap ofWord = vs.flatMap ofWord) :
    ws = vs := by
  induction ws generalizing vs with
  | nil =>
      cases vs with
      | nil => rfl
      | cons v vs => cases h
  | cons w ws ih =>
      cases vs with
      | nil => cases h
      | cons v vs =>
          obtain ⟨hfirst, hrest⟩ := List.append_inj h rfl
          rw [ofWord_inj hfirst, ih hrest]

/-- Words read one after the other have the bytes that stand there. -/
theorem flatMap_wordAt (bytes : ByteArray) (n : Nat) :
    ((List.range n).map fun i => wordAt bytes (4 * i)).flatMap ofWord =
      (List.range (4 * n)).map (byteAt bytes) := by
  induction n with
  | zero => rfl
  | succ n ih =>
      have hrange : List.range (4 * (n + 1)) =
          List.range (4 * n) ++ [4 * n, 4 * n + 1, 4 * n + 2, 4 * n + 3] := by
        rw [show 4 * (n + 1) = 4 * n + 1 + 1 + 1 + 1 by omega]
        simp only [List.range_succ, List.append_assoc, List.cons_append, List.nil_append]
      rw [List.range_succ, List.map_append, List.flatMap_append, ih, hrange, List.map_append,
        List.map_singleton, List.flatMap_singleton, ofWord_wordAt]
      rfl

theorem map_byteAt (bytes : ByteArray) :
    (List.range bytes.size).map (byteAt bytes) = bytes.data.toList := by
  apply List.ext_getElem
  · simp
  · intro i hi hi'
    have hsize : i < bytes.size := by simpa using hi'
    simp only [List.getElem_map, List.getElem_range, byteAt, hsize, dif_pos]
    rfl

theorem ofWords_words {bytes : ByteArray} (h : bytes.size % 4 = 0) :
    ofWords (words bytes) = bytes := by
  have hwhole : 4 * (bytes.size / 4) = bytes.size := by omega
  apply ByteArray.ext
  rw [ofWords, words, flatMap_wordAt, hwhole, map_byteAt]

theorem words_ofWords (ws : List UInt32) : words (ofWords ws) = ws := by
  have hsize : (ofWords ws).size % 4 = 0 := by
    rw [size_ofWords]
    omega
  have hbytes := congrArg (fun b => b.data.toList) (ofWords_words hsize)
  exact flatMap_ofWord_inj hbytes

end Bytes

namespace Listing

/-- The binary form is read exactly from the bytes of its words. -/
theorem parseBinary_eq_ok_iff {name : String} {bytes : ByteArray} {config : Config} {p : Program} :
    parseBinary name bytes config = .ok p ↔
      bytes = Bytes.ofWords (p.words.map (·.raw)) ∧ p.name = name ∧ p.config = config := by
  rw [parseBinary]
  constructor
  · intro h
    split at h
    · cases h
    · cases h
      refine ⟨?_, rfl, rfl⟩
      rw [List.map_map, List.map_id'', Bytes.ofWords_words (by omega)]
      exact fun _ => rfl
  · rintro ⟨rfl, rfl, rfl⟩
    have hsize : (Bytes.ofWords (p.words.map (·.raw))).size % 4 = 0 := by
      rw [Bytes.size_ofWords]
      omega
    rw [if_neg (not_not_intro hsize), Bytes.words_ofWords, List.map_map, List.map_id'']
    exact fun _ => rfl

theorem exists_parseBinary_iff (name : String) (bytes : ByteArray) (config : Config) :
    (∃ p, parseBinary name bytes config = .ok p) ↔ bytes.size % 4 = 0 := by
  rw [parseBinary]
  by_cases hsize : bytes.size % 4 = 0
  · rw [if_neg (not_not_intro hsize)]
    exact iff_of_true ⟨_, rfl⟩ hsize
  · rw [if_pos hsize]
    exact iff_of_false (by rintro ⟨_, ⟨⟩⟩) hsize

end Listing

namespace Command

/-- The binary form and the words of a program are one to one: the bytes of any words are read as
these words, bytes are read exactly if they are whole words, and they are the bytes of what was
read. A binary file under a name without a line feed gives the same program in three ways: a push
builds it from the bytes, the listing that is printed of the file reads back as it, and a push of a
file with that listing builds it again. It passes the check of the engine it was read for each
time. -/
theorem binary_form_exact :
    (∀ (name : String) (config : Config) (ws : List Instruction),
        Listing.parseBinary name (Bytes.ofWords (ws.map (·.raw))) config =
          .ok ⟨name, ws, config⟩) ∧
      (∀ (name : String) (config : Config) (bytes : ByteArray),
        ((∃ p, Listing.parseBinary name bytes config = .ok p) ↔ bytes.size % 4 = 0) ∧
          ∀ p, Listing.parseBinary name bytes config = .ok p →
            Bytes.ofWords (p.words.map (·.raw)) = bytes) ∧
      ∀ (s : Surroundings) (c : Settings) (g : Geometry) (path : String) (bytes : ByteArray),
        Geometry.ofSizes c.lanes c.width = .ok g → s.files.read path = .ok bytes →
        bytes.size % 4 = 0 → '\n' ∉ (programName path).toList →
        let shown := run s ⟨c, .disassemble path true⟩
        ∃ p, readProgram s g path true = .ok p ∧ p.checkCompatible g = .ok () ∧
          (∀ wait pop,
            run s ⟨c, .push path true wait pop⟩ = withLink s c g (talkPush p wait pop)) ∧
          shown.exitCode = 0 ∧ Listing.parse (programName path) shown.printed = .ok p ∧
          ∀ (s' : Surroundings) (path' : String), s'.files.read path' = .ok shown.printed.toUTF8 →
            programName path' = programName path → ∀ wait pop,
              run s' ⟨c, .push path' false wait pop⟩ = withLink s' c g (talkPush p wait pop) := by
  refine ⟨fun name config ws => ?_, fun name config bytes => ⟨?_, ?_⟩, ?_⟩
  · exact Listing.parseBinary_eq_ok_iff.2 ⟨rfl, rfl, rfl⟩
  · exact Listing.exists_parseBinary_iff name bytes config
  · intro p hp
    exact (Listing.parseBinary_eq_ok_iff.1 hp).1.symm
  · intro s c g path bytes hg hread hsize hfeed shown
    obtain ⟨p, hparse⟩ :=
      (Listing.exists_parseBinary_iff (programName path) bytes (.ofGeometry g)).2 hsize
    obtain ⟨-, hname, hconfig⟩ := Listing.parseBinary_eq_ok_iff.1 hparse
    obtain ⟨name, words, config⟩ := p
    subst hname hconfig
    have hbuilt := readProgram_binary hread hparse
    have hfits := Program.checkCompatible_ofGeometry (programName path) words g
    have hshown : shown = { output := disassembly ⟨programName path, words, .ofGeometry g⟩ } :=
      run_disassemble hg hbuilt
    have hback := Listing.parse_render_of_feed_not_mem
      (p := ⟨programName path, words, .ofGeometry g⟩) hfeed
    refine ⟨_, hbuilt, hfits, run_push hg hbuilt hfits, ?_, ?_, ?_⟩
    · rw [hshown]
      rfl
    · rw [hshown]
      exact hback
    · intro s' path' hread' hname'
      rw [hshown] at hread'
      refine run_push hg (readProgram_listing hread' ?_) hfits
      rw [hname', Listing.parseBytes_toUTF8]
      exact hback

/-- Two words in a file, for an engine of five lanes and three bits. -/
theorem binary_form_exact_two_words :
    let bytes := Bytes.ofWords [0x18C00000, 0x40000000]
    let s : Surroundings := { files := (FileTree.initial.add "k.v1.bin" (.file bytes)).files }
    let c : Settings := { lanes := 5, width := 3 }
    let g : Geometry := ⟨5, 3, by decide, by decide, by decide, by decide⟩
    let p : Program := ⟨"k.v1", [⟨0x18C00000⟩, ⟨0x40000000⟩], { lanes := 5, width := 3 }⟩
    Geometry.ofSizes c.lanes c.width = .ok g ∧ s.files.read "k.v1.bin" = .ok bytes ∧
      bytes.size % 4 = 0 ∧ '\n' ∉ (programName "k.v1.bin").toList ∧
      readProgram s g "k.v1.bin" true = .ok p ∧ p.checkCompatible g = .ok () ∧
      Listing.parse "k.v1" (run s ⟨c, .disassemble "k.v1.bin" true⟩).printed = .ok p := by
  intro bytes s c g p
  have hname : programName "k.v1.bin" = "k.v1" := rfl
  have hfeed : '\n' ∉ (programName "k.v1.bin").toList := by
    rw [hname]
    decide
  have hsize : bytes.size % 4 = 0 := by rw [Bytes.size_ofWords, Nat.mul_mod_right]
  have hbuilt : readProgram s g "k.v1.bin" true = .ok p :=
    readProgram_binary rfl (Listing.parseBinary_eq_ok_iff.2 ⟨rfl, hname.symm, rfl⟩)
  obtain ⟨q, hsame, hfits, -, -, hback, -⟩ :=
    binary_form_exact.2.2 s c g "k.v1.bin" bytes rfl rfl hsize hfeed
  cases hsame.symm.trans hbuilt
  exact ⟨rfl, rfl, hsize, hfeed, hbuilt, hfits, hback⟩

end Command

end Gemv
