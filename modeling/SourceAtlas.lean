import SourceAtlas.Main
import SourceAtlas.Proofs.Bracket.Scanners
import SourceAtlas.Proofs.CSharp.GenericMethod
import SourceAtlas.Proofs.CSharp.ParameterList
import SourceAtlas.Proofs.CSharp.TrimmedMember
import SourceAtlas.Proofs.CSharp.Written
import SourceAtlas.Proofs.Classification.RuleChange
import SourceAtlas.Proofs.Declaration.Comment
import SourceAtlas.Proofs.Declaration.MarkerBlock
import SourceAtlas.Proofs.Endpoint.Route
import SourceAtlas.Proofs.EnumConstant.Written
import SourceAtlas.Proofs.Markdown.Content
import SourceAtlas.Proofs.Member.Attachment
import SourceAtlas.Proofs.Member.Layout
import SourceAtlas.Proofs.Outline.Paths
import SourceAtlas.Proofs.Overview.Repeat
import SourceAtlas.Proofs.Parser.Plugins
import SourceAtlas.Proofs.Parser.Script.Comment
import SourceAtlas.Proofs.Parser.Script.Written
import SourceAtlas.Proofs.Report.EndpointTable
import SourceAtlas.Proofs.Rule
import SourceAtlas.Proofs.TypeScript.MemberHeader
import SourceAtlas.Proofs.TypeScript.ParameterList
