import StyleSplit.Text.Blank
import StyleSplit.Text.Width
import StyleSplit.Text.Search
import StyleSplit.Text.Slice
import StyleSplit.Comment
import StyleSplit.Comment.Bytes
import StyleSplit.Malformed
import StyleSplit.Piece
import StyleSplit.Span
import StyleSplit.Rule
import StyleSplit.Media
import StyleSplit.Sheet
import StyleSplit.Sheet.Parse
import StyleSplit.Sheet.Bytes
import StyleSplit.Pack
import StyleSplit.Partition
import StyleSplit.Path
import StyleSplit.Compile
import StyleSplit.Config
import StyleSplit.Error
import StyleSplit.ChunkFile
import StyleSplit.Store
import StyleSplit.Splitter
import StyleSplit.Session
import StyleSplit.Cli
import StyleSplit.Main
import StyleSplit.Proofs.Packing
import StyleSplit.Proofs.Greedy
import StyleSplit.Proofs.FewestChunks
import StyleSplit.Proofs.Partition
import StyleSplit.Proofs.Scan
import StyleSplit.Proofs.Reading
import StyleSplit.Proofs.Reread
import StyleSplit.Proofs.Window
import StyleSplit.Proofs.Diagnosis
import StyleSplit.Proofs.Paths
import StyleSplit.Proofs.Store
import StyleSplit.Proofs.Run
import StyleSplit.Proofs.Comments
import StyleSplit.Proofs.CommentPattern
import StyleSplit.Proofs.Boundaries
import StyleSplit.Proofs.Extract
