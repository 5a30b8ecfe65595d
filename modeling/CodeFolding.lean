import CodeFolding.Json.Reader
import CodeFolding.Main
import CodeFolding.Proofs.BlockText
import CodeFolding.Proofs.ColouredView
import CodeFolding.Proofs.EndedDeclarations
import CodeFolding.Proofs.Extensions
import CodeFolding.Proofs.FileRecord
import CodeFolding.Proofs.FinalLineEnd
import CodeFolding.Proofs.FoldableLines
import CodeFolding.Proofs.Indentation
import CodeFolding.Proofs.InsertedLines
import CodeFolding.Proofs.LineMeasures
import CodeFolding.Proofs.Places
import CodeFolding.Proofs.TallyWords
import CodeFolding.Proofs.Toggles
import CodeFolding.Proofs.TopFiles
import CodeFolding.Proofs.TrailingComments
import CodeFolding.Proofs.UseStream
import CodeFolding.Proofs.WiderSettings
