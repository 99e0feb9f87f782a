import ApiElements.Settings.File
import Mathlib.Data.String.Basic

/-!
This module contains at which paths there can be a settings file: every name of a file is such a path,
and messages show it as it is.
-/

namespace ApiElements

namespace Settings

open String

variable {path name : String}

structure Leads (path : String) : Prop where
  whole : endsEarly path = false
  fits : isPathTooLong path = false
  file : isDirectory path = false

theorem Leads.checkPath (h : Leads path) : checkPath path = .ok () := by
  rw [Settings.checkPath, h.fits, h.file]
  rfl

section Names

theorem splitOnAux_of_valid (read : List Char) {rest : List Char} (h : '/' ∉ rest)
    : splitOnAux (ofList (read ++ rest)) "/" 0 ⟨utf8Len read⟩ 0 [] = [ofList (read ++ rest)] := by
  induction rest generalizing read with
  | nil =>
    have hend : Pos.Raw.atEnd (ofList (read ++ [])) ⟨utf8Len read⟩ = true := by
      rw [atEnd_of_valid]
    have hextract := extract_zero_rawEndPos (ofList read)
    rw [rawEndPos_ofList] at hextract
    rw [splitOnAux, if_pos hend, List.append_nil, hextract]
    rfl
  | cons c rest ih =>
    rw [List.mem_cons, not_or] at h
    obtain ⟨hc, hrest⟩ := h
    have hend : ¬ Pos.Raw.atEnd (ofList (read ++ c :: rest)) ⟨utf8Len read⟩ = true := by
      rw [atEnd_of_valid]
      exact List.cons_ne_nil c rest
    have hslash : ¬ (c == Pos.Raw.get "/" 0) = true := by
      rw [beq_iff_eq]
      exact Ne.symm hc
    have hback : Pos.Raw.unoffsetBy ⟨utf8Len read⟩ 0 = ⟨utf8Len read⟩ := rfl
    rw [splitOnAux, if_neg hend, get_of_valid, List.headD_cons, if_neg hslash, hback, next_of_valid]
    have hsplit := ih (read ++ [c]) hrest
    rw [List.append_assoc, List.singleton_append, utf8Len_append] at hsplit
    simpa using hsplit

theorem splitOn_of_not_mem (h : '/' ∉ name.toList) : name.splitOn "/" = [name] := by
  have hsplit := splitOnAux_of_valid [] h
  rw [List.nil_append, ofList_toList] at hsplit
  exact hsplit

structure FileName (name : String) : Prop where
  whole : '\x00' ∉ name.toList
  single : '/' ∉ name.toList
  fits : name.utf8ByteSize ≤ partLimit
  nonempty : name ≠ ""
  not_same_directory : name ≠ "."
  not_directory_above : name ≠ ".."

theorem FileName.pathParts (h : FileName name) : pathParts name = [name] := by
  rw [Settings.pathParts, splitOn_of_not_mem h.single]
  simp [h.nonempty, h.not_same_directory]

theorem FileName.shownPath (h : FileName name) : shownPath name = name := by
  have hslashes : name.toList.takeWhile (· = '/') = [] := by
    have hsingle := h.single
    cases hchars : name.toList with
    | nil => rfl
    | cons c rest =>
      rw [hchars, List.mem_cons, not_or] at hsingle
      rw [List.takeWhile_cons_of_neg]
      simpa [eq_comm] using hsingle.1
  rw [Settings.shownPath, hslashes, h.pathParts]
  simp [h.nonempty]

theorem FileName.leads (h : FileName name) : Leads name where
  whole := by
    rw [endsEarly, Bool.eq_false_iff, ne_eq, List.contains_iff_mem]
    exact h.whole
  fits := by
    have hpart := h.fits
    have hpath : ¬ pathLimit < name.utf8ByteSize := by
      unfold partLimit at hpart
      unfold pathLimit
      omega
    rw [isPathTooLong, h.shownPath, h.pathParts]
    simp [hpath, hpart]
  file := by
    rw [isDirectory, h.pathParts]
    simp [h.not_directory_above]

end Names

end Settings

end ApiElements
